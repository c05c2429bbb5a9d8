import Xv6.Directory
import Xv6.FileWrite
import Xv6.RefCounts

/-!
# Path names

`namex` goes down a path by `skipelem`, `ilock`, `dirlookup` and `iput`. What it finds is the fold of
the maps `lookup` over the components of the path (`path_resolution`), and it keeps no reference but
the one to its result.

A directory that is looked into has to be allocated: `ilock` panics otherwise. That can happen, as
`..` of a directory that has been removed, and is still the current one of a process, may be the number of
an inode that is free.
-/

open Bytes Device Multiset

namespace Xv6

/-! ### Components -/

/-- The components of a path: its pieces without `/` that are not empty, cut to `DIRSIZ` bytes. -/
def elements (path : Path) : List (List UInt8) :=
  ((path.splitOn slash).filter fun c => !c.isEmpty).map (List.take DIRSIZ)

theorem elements_nil : elements [] = [] := rfl

theorem elements_slash (path : Path) : elements (slash :: path) = elements path := by
  unfold elements
  rw [List.splitOn, List.splitOnP_cons_eq_if_modifyHead, if_pos (by decide)]
  rfl

theorem elements_dropWhile (path : Path) :
    elements (path.dropWhile (· == slash)) = elements path := by
  induction path with
  | nil => rfl
  | cons c path ih =>
    by_cases hc : (c == slash) = true
    · rw [List.dropWhile_cons_of_pos (p := (· == slash)) hc, ih, eq_of_beq hc, elements_slash]
    · rw [List.dropWhile_cons_of_neg (p := (· == slash)) hc]

theorem dropWhile_head (p : UInt8 → Bool) (l : List UInt8) :
    l.dropWhile p = [] ∨ ∃ c r, l.dropWhile p = c :: r ∧ p c = false := by
  induction l with
  | nil => exact Or.inl rfl
  | cons c l ih =>
    cases hc : p c with
    | true => rwa [List.dropWhile_cons_of_pos hc]
    | false =>
      rw [List.dropWhile_cons_of_neg (by rw [hc]; decide)]
      exact Or.inr ⟨c, l, rfl, hc⟩

/-- A path that does not start with `/`: a component, and what follows it. -/
theorem elements_word {c : UInt8} {r : Path} (hc : (c == slash) = false) :
    elements (c :: r) = ((c :: r).takeWhile (· != slash)).take DIRSIZ ::
      elements ((c :: r).dropWhile (· != slash)) := by
  generalize hw : (c :: r).takeWhile (· != slash) = w
  have hsplit := List.takeWhile_append_dropWhile (p := (· != slash)) (l := c :: r)
  rw [hw] at hsplit
  have hempty : (!w.isEmpty) = true := by
    rw [← hw, List.takeWhile_cons_of_pos (by rw [bne, hc]; rfl)]
    rfl
  have hmem : ∀ x ∈ w, (x == slash) = false := by
    intro x hx
    have := List.mem_takeWhile_imp (hw.symm ▸ hx)
    simpa using this
  rcases dropWhile_head (· != slash) (c :: r) with h0 | ⟨x, r', h1, h2⟩
  · rw [h0, List.append_nil] at hsplit
    rw [h0, elements_nil, ← hsplit]
    unfold elements
    rw [List.splitOn, List.splitOnP_eq_singleton hmem,
      List.filter_cons_of_pos (p := fun c : List UInt8 => !c.isEmpty) hempty]
    rfl
  · obtain rfl : x = slash := by simpa using h2
    rw [h1] at hsplit
    rw [h1, elements_slash, ← hsplit]
    unfold elements
    rw [List.splitOn, List.splitOnP_append_cons_of_forall_mem hmem slash (by decide),
      List.filter_cons_of_pos (p := fun c : List UInt8 => !c.isEmpty) hempty]
    rfl

theorem skipelem_eq_none {path : Path} (h : skipelem path = none) : elements path = [] := by
  unfold skipelem at h
  split at h
  · next hd => rw [← elements_dropWhile, hd, elements_nil]
  · cases h

/-- **`skipelem`** takes the first component off; nothing is left only after the last one. -/
theorem skipelem_eq_some {path rest : Path} {name : List UInt8}
    (h : skipelem path = some (rest, name)) :
    elements path = name :: elements rest ∧ (rest = [] ↔ elements rest = []) := by
  unfold skipelem at h
  split at h
  · cases h
  · next hd =>
    cases h
    obtain ⟨c, r, hp, hc⟩ := (dropWhile_head (· == slash) path).resolve_left hd
    refine ⟨?_, ?_⟩
    · rw [elements_dropWhile, ← elements_dropWhile path, hp, elements_word hc]
    · rcases dropWhile_head (· == slash) ((path.dropWhile (· == slash)).dropWhile (· != slash))
        with h0 | ⟨x, r', h1, h2⟩
      · rw [h0]
        exact iff_of_true rfl elements_nil
      · rw [h1, elements_word h2]
        exact iff_of_false (List.cons_ne_nil _ _) (List.cons_ne_nil _ _)

/-- What `skipelem` delivers when it is called again with what it returns: names, and what is left. -/
def skipelems (path : Path) : List (List UInt8 × Path) :=
  match _h : skipelem path with
  | none => []
  | some (rest, name) => (name, rest) :: skipelems rest
termination_by path.length
decreasing_by exact length_skipelem _h

theorem skipelems_eq_nil {path : Path} (h : skipelem path = none) : skipelems path = [] := by
  rw [skipelems]
  split
  · rfl
  · next h' =>
    rw [h] at h'
    cases h'

theorem skipelems_eq_cons {path rest : Path} {name : List UInt8}
    (h : skipelem path = some (rest, name)) : skipelems path = (name, rest) :: skipelems rest := by
  rw [skipelems]
  split
  · next h' =>
    rw [h] at h'
    cases h'
  · next h' =>
    rw [h] at h'
    cases h'
    rfl

/-- The names are the components, and what is left is empty at the last one and only there. -/
theorem skipelems_spec (path : Path) : (skipelems path).map Prod.fst = elements path ∧
    ∀ pre x post, skipelems path = pre ++ x :: post → (x.2 = [] ↔ post = []) := by
  induction hn : path.length using Nat.strong_induction_on generalizing path with
  | _ n ih =>
    cases h : skipelem path with
    | none =>
      rw [skipelems_eq_nil h, skipelem_eq_none h]
      refine ⟨rfl, fun pre x post he => ?_⟩
      exact absurd he.symm (List.append_ne_nil_of_right_ne_nil _ (List.cons_ne_nil _ _))
    | some p =>
      obtain ⟨rest, name⟩ := p
      obtain ⟨h1, h2⟩ := skipelem_eq_some h
      obtain ⟨ih1, ih2⟩ := ih rest.length (hn ▸ length_skipelem h) rest rfl
      rw [skipelems_eq_cons h, h1, List.map_cons, ih1]
      refine ⟨rfl, fun pre x post he => ?_⟩
      cases pre with
      | nil =>
        obtain ⟨rfl, rfl⟩ := List.cons.inj he
        rw [h2, ← ih1, List.map_eq_nil_iff]
      | cons y pre => exact ih2 pre x post (List.cons.inj he).2

/-! ### The fold over the components -/

section Resolve

variable (sb : Superblock) (D : Nat → Dinode) (buf : Nat → Block)

/-- The inode that components lead to from inode `i`. -/
def resolve : Nat → List (List UInt8) → Option Nat
  | i, [] => some i
  | i, c :: cs =>
    if (D i).type = T_DIR then (lookup sb D buf i c).bind fun e => resolve e.1 cs else none

/-- The directory that all components but the last lead to, and the last one. -/
def resolveParent (i : Nat) (cs : List (List UInt8)) : Option (Nat × List UInt8) :=
  cs.getLast?.bind fun name => (resolve sb D buf i cs.dropLast).bind fun p =>
    if (D p).type = T_DIR then some (p, name) else none

/-- The way of `namex`, from inode `i` with `name` the last component read. -/
def descend (parent : Bool) : Nat → List UInt8 → List (List UInt8) → Option (Nat × List UInt8)
  | i, name, [] => if parent then none else some (i, name)
  | i, _, c :: cs =>
    if (D i).type ≠ T_DIR then none
    else if parent ∧ cs = [] then some (i, c)
    else (lookup sb D buf i c).bind fun e => descend parent e.1 c cs

/-- `P` holds of the inodes that components are looked up in. -/
def Along (P : Nat → Prop) : Nat → List (List UInt8) → Prop
  | _, [] => True
  | i, c :: cs => P i ∧ ∀ j t, (D i).type = T_DIR → lookup sb D buf i c = some (j, t) → Along P j cs

variable {sb D buf} {i j : Nat} {c name : List UInt8} {cs : List (List UInt8)} {P : Nat → Prop}

theorem descend_false : (descend sb D buf false i name cs).map Prod.fst = resolve sb D buf i cs := by
  induction cs generalizing i name with
  | nil => rfl
  | cons c cs ih =>
    rw [descend, resolve]
    by_cases hd : (D i).type = T_DIR
    · rw [if_neg (not_not.mpr hd), if_neg (by simp), if_pos hd]
      cases lookup sb D buf i c with
      | none => rfl
      | some e => exact ih
    · rw [if_pos hd, if_neg hd]
      rfl

theorem descend_true (name : List UInt8) :
    descend sb D buf true i name cs = resolveParent sb D buf i cs := by
  induction cs generalizing i name with
  | nil => rfl
  | cons c cs ih =>
    rw [descend, resolveParent]
    cases cs with
    | nil =>
      change _ = (if (D i).type = T_DIR then some (i, c) else none)
      by_cases hd : (D i).type = T_DIR
      · rw [if_neg (not_not.mpr hd), if_pos ⟨rfl, rfl⟩, if_pos hd]
      · rw [if_pos hd, if_neg hd]
    | cons c' cs =>
      rw [List.dropLast_cons_cons, List.getLast?_cons_cons, resolve]
      by_cases hd : (D i).type = T_DIR
      · rw [if_neg (not_not.mpr hd), if_neg (by simp), if_pos hd]
        cases lookup sb D buf i c with
        | none => cases (c' :: cs).getLast? <;> rfl
        | some e =>
          change descend sb D buf true e.1 c (c' :: cs) = _
          rw [ih]
          rfl
      · rw [if_pos hd, if_neg hd]
        cases (c' :: cs).getLast? <;> rfl

theorem resolve_eq_some (h : resolve sb D buf i cs = some j) (hne : cs ≠ []) :
    ∃ p name t, resolveParent sb D buf i cs = some (p, name) ∧ (D p).type = T_DIR ∧
      lookup sb D buf p name = some (j, t) := by
  induction cs generalizing i with
  | nil => exact absurd rfl hne
  | cons c cs ih =>
    rw [resolve] at h
    split at h
    · next hd =>
      obtain ⟨⟨v, t⟩, hv, hr⟩ := Option.bind_eq_some_iff.mp h
      rw [← descend_true c, descend, if_neg (not_not.mpr hd)]
      cases cs with
      | nil =>
        cases hr
        exact ⟨i, c, t, if_pos ⟨rfl, rfl⟩, hd, hv⟩
      | cons c' cs =>
        obtain ⟨p, name, t', h1, h2, h3⟩ := ih hr (List.cons_ne_nil _ _)
        refine ⟨p, name, t', ?_, h2, h3⟩
        rw [if_neg (by simp), hv]
        exact (descend_true c).trans h1
    · cases h

theorem Along.parent (h : Along sb D buf P i cs) {p : Nat}
    (hp : resolveParent sb D buf i cs = some (p, name)) : P p := by
  induction cs generalizing i with
  | nil => cases hp
  | cons c cs ih =>
    obtain ⟨hP, hrest⟩ := h
    rw [← descend_true c, descend] at hp
    split at hp
    · cases hp
    · next hd =>
      split at hp
      · cases hp
        exact hP
      · obtain ⟨⟨v, t⟩, hv, hr⟩ := Option.bind_eq_some_iff.mp hp
        exact ih (hrest v t (not_not.mp hd) hv) ((descend_true c).symm.trans hr)

end Resolve

/-! ### References held on the way -/

variable {sb : Superblock} {s : KState} {h₀ h h' : Home} {D : Nat → Dinode} {J : Policy Event}
  {R R' : Multiset Nat} {b b' : Option Nat} {i j k : Nat} {name : List UInt8} {path : Path}

/-- What a walk that began in `h₀` has changed: it has taken a reference to each slot of `R`, locked
the slot `b`, and read inodes into the cache. -/
structure Walk (sb : Superblock) (D : Nat → Dinode) (h₀ h : Home) (R : Multiset Nat)
    (b : Option Nat) : Prop where
  inv : FsInv sb h D noStale
  eq : h = { h₀ with mem := { h₀.mem with icache := h.mem.icache } }
  ref : ∀ k < NINODE, (h.mem.icache k).ref = (h₀.mem.icache k).ref + R.count k
  inum : ∀ k < NINODE, 0 < (h₀.mem.icache k).ref → (h.mem.icache k).inum = (h₀.mem.icache k).inum
  busy : ∀ k < NINODE, 0 < (h.mem.icache k).ref → ((h.mem.icache k).busy = true ↔ b = some k)
  alive : ∀ k < NINODE, 0 < (h.mem.icache k).ref → (h.mem.icache k).valid = true →
    Used sb D (h.mem.icache k).inum
  lt : ∀ k ∈ R, k < NINODE
  held : ∀ k, b = some k → k ∈ R

namespace Walk

theorem ref_pos (w : Walk sb D h₀ h R b) (hk : k ∈ R) : 0 < (h.mem.icache k).ref := by
  have h1 := w.ref k (w.lt k hk)
  have h2 := count_pos.mpr hk
  omega

theorem setSlot (w : Walk sb D h₀ h R b) {f : Inode → Inode} (hinv : FsInv sb (h.setSlot k f) D noStale)
    (href : k < NINODE → (f (h.mem.icache k)).ref = (h₀.mem.icache k).ref + R'.count k)
    (hcount : ∀ k', k' ≠ k → R'.count k' = R.count k')
    (hinum : k < NINODE → 0 < (h₀.mem.icache k).ref →
      (f (h.mem.icache k)).inum = (h₀.mem.icache k).inum)
    (hbusy : k < NINODE → 0 < (f (h.mem.icache k)).ref →
      ((f (h.mem.icache k)).busy = true ↔ b' = some k))
    (hb : ∀ k', k' ≠ k → (b' = some k' ↔ b = some k'))
    (halive : k < NINODE → 0 < (f (h.mem.icache k)).ref → (f (h.mem.icache k)).valid = true →
      Used sb D (f (h.mem.icache k)).inum)
    (hlt : ∀ k' ∈ R', k' < NINODE) (hheld : ∀ k', b' = some k' → k' ∈ R') :
    Walk sb D h₀ (h.setSlot k f) R' b' := by
  refine ⟨hinv, ?_, fun k' hk' => ?_, fun k' hk' => ?_, fun k' hk' => ?_, fun k' hk' => ?_, hlt, hheld⟩
  · conv_lhs => rw [w.eq]
    rfl
  all_goals
    by_cases hne : k' = k
    · subst hne
      rw [Home.setSlot_self]
      first
      | exact href hk'
      | exact hinum hk'
      | exact hbusy hk'
      | exact halive hk'
    · rw [Home.setSlot_of_ne f hne]
      first
      | exact (w.ref k' hk').trans (by rw [hcount k' hne])
      | exact w.inum k' hk'
      | exact fun hr => (w.busy k' hk' hr).trans (hb k' hne).symm
      | exact w.alive k' hk'

theorem setSlot_same (w : Walk sb D h₀ h R b) (hk : k ∈ R) {f : Inode → Inode}
    (href : (f (h.mem.icache k)).ref = (h.mem.icache k).ref)
    (hinum : (f (h.mem.icache k)).inum = (h.mem.icache k).inum)
    (hdin : (f (h.mem.icache k)).valid = true → Used sb D (h.mem.icache k).inum ∧
      (f (h.mem.icache k)).din = D (h.mem.icache k).inum)
    (hbusy : (f (h.mem.icache k)).busy = true ↔ b' = some k)
    (hb : ∀ k', k' ≠ k → (b' = some k' ↔ b = some k')) : Walk sb D h₀ (h.setSlot k f) R b' := by
  have hlt := w.lt k hk
  refine w.setSlot (w.inv.setSlot_same hlt (w.ref_pos hk) f hinum fun hv => (hdin hv).2)
    (fun _ => href.trans (w.ref k hlt)) (fun _ _ => rfl) (fun _ h0 => hinum.trans (w.inum k hlt h0))
    (fun _ _ => hbusy) hb (fun _ _ hv => hinum ▸ (hdin hv).1) w.lt fun k' hk' => ?_
  by_cases hne : k' = k
  · exact hne ▸ hk
  · exact w.held k' ((hb k' hne).mp hk')

theorem hwp_ilock (w : Walk sb D h₀ h R none) (hk : k ∈ R) (hl : h.locked = ∅)
    (htype : J.stop (.panic "ilock: no type") ∨ Used sb D (h.mem.icache k).inum)
    {Q : Unit → Home → Prop}
    (hQ : ∀ h', Used sb D (h.mem.icache k).inum → Walk sb D h₀ h' R (some k) →
      (h'.mem.icache k).valid = true → (∀ k', (h'.mem.icache k').inum = (h.mem.icache k').inum) →
      Q () h') :
    hwp J (ilock k) Q h := by
  have hlt := w.lt k hk
  have href := w.ref_pos hk
  have hidle : (h.mem.icache k).busy = false :=
    Bool.eq_false_iff.mpr fun hbusy => nomatch (w.busy k hlt href).mp hbusy
  refine hwp_ilock_slot w.inv hl hlt href (fun hbusy => ?_) htype fun _ hload => ?_
  · rw [hidle] at hbusy
    cases hbusy
  · -- what is in the cache is allocated, and what is read from the disk is checked
    have hused : Used sb D (h.mem.icache k).inum := by
      cases hv : (h.mem.icache k).valid with
      | true => exact w.alive k hlt href hv
      | false => exact hload hv
    refine hQ _ hused (w.setSlot_same hk rfl rfl (fun _ => ⟨hused, rfl⟩) (iff_of_true rfl rfl)
      fun k' hne => iff_of_false (fun he => hne (Option.some.inj he).symm) nofun) ?_ fun k' => ?_
    · rw [Home.setSlot_self]
      rfl
    · by_cases hne : k' = k
      · subst hne
        rw [Home.setSlot_self]
        rfl
      · rw [Home.setSlot_of_ne _ hne]

theorem hwp_iunlock (w : Walk sb D h₀ h R (some k)) {Q : Unit → Home → Prop}
    (hQ : ∀ h', Walk sb D h₀ h' R none →
      (∀ k', (h'.mem.icache k').inum = (h.mem.icache k').inum) → Q () h') :
    hwp J (iunlock k) Q h := by
  have hk := w.held k rfl
  have hlt := w.lt k hk
  have href := w.ref_pos hk
  refine hwp_iunlock_slot href ((w.busy k hlt href).mpr rfl) (hQ _ ?_ fun k' => ?_)
  · exact w.setSlot_same hk rfl rfl
      (fun hv => ⟨w.alive k hlt href hv, w.inv.rep.cache k hlt href hv⟩)
      (iff_of_false Bool.false_ne_true nofun)
      fun k' hne => iff_of_false nofun fun he => hne (Option.some.inj he).symm
  · by_cases hne : k' = k
    · subst hne
      rw [Home.setSlot_self]
    · rw [Home.setSlot_of_ne _ hne]

/-- `iput` of an inode that another reference holds, or that has links. -/
theorem hwp_iput (w : Walk sb D h₀ h R b) (hk : k ∈ R) (hb : b ≠ some k)
    (hlive : 0 < (h₀.mem.icache k).ref ∨
      ((h.mem.icache k).valid = true → (D (h.mem.icache k).inum).nlink ≠ 0))
    {Q : Unit → Home → Prop}
    (hQ : ∀ h', Walk sb D h₀ h' (R.erase k) b →
      (∀ k', (h'.mem.icache k').inum = (h.mem.icache k').inum) → Q () h') :
    hwp J (iput k) Q h := by
  have hlt := w.lt k hk
  have href := w.ref_pos hk
  have hcount := count_pos.mpr hk
  have hdead : (h.mem.icache k).dead = false := by
    have hr := w.ref k hlt
    unfold Inode.dead
    rcases hlive with h0 | hlink
    · rw [decide_eq_false (by omega)]
      rfl
    · cases hv : (h.mem.icache k).valid with
      | false => rw [Bool.and_false, Bool.false_and]
      | true =>
        rw [w.inv.rep.cache k hlt href hv, decide_eq_false (hlink hv), Bool.and_false]
  refine hwp_bind (hwp_yield (hwp_bind (hwp_get ?_)))
  rw [hdead]
  refine hwp_modify rfl (hQ (h.setSlot k fun ip => { ip with ref := ip.ref - 1 }) ?_ fun k' => ?_)
  · have hpos : 0 < (h.mem.icache k).ref - 1 → 0 < (h.mem.icache k).ref := fun _ => href
    refine w.setSlot (w.inv.setSlot_same hlt href _ rfl (w.inv.rep.cache k hlt href)) (fun _ => ?_)
      (fun k' hne => count_erase_of_ne hne R) (fun _ => w.inum k hlt)
      (fun _ _ => w.busy k hlt href) (fun _ _ => Iff.rfl) (fun _ _ => w.alive k hlt href)
      (fun k' hk' => w.lt k' (mem_of_mem_erase hk')) fun k' hk' => ?_
    · have h1 := w.ref k hlt
      rw [count_erase_self]
      change (h.mem.icache k).ref - 1 = _
      omega
    · refine (mem_erase_of_ne ?_).mpr (w.held k' hk')
      rintro rfl
      exact hb hk'
  · by_cases hne : k' = k
    · subst hne
      rw [Home.setSlot_self]
    · rw [Home.setSlot_of_ne _ hne]

theorem hwp_iget (w : Walk sb D h₀ h R b) (hs : igetSlot h.mem.icache j = some k)
    (hj : j < sb.ninodes) {Q : Nat → Home → Prop}
    (hQ : ∀ h', Walk sb D h₀ h' (k ::ₘ R) b → (h'.mem.icache k).inum = j →
      (∀ k', 0 < (h.mem.icache k').ref → (h'.mem.icache k').inum = (h.mem.icache k').inum) →
      0 < (h.mem.icache k).ref ∨ (h'.mem.icache k).valid = false → Q k h') :
    hwp J (iget j) Q h := by
  obtain ⟨hlt, hcases⟩ := igetMem_cases hs
  have hcount : ∀ k', k' ≠ k → (k ::ₘ R).count k' = R.count k' := fun k' hne =>
    count_cons_of_ne hne R
  have hltR : ∀ k' ∈ k ::ₘ R, k' < NINODE := by
    intro k' hk'
    rcases mem_cons.mp hk' with rfl | hk'
    · exact hlt
    · exact w.lt k' hk'
  have hheld : ∀ k', b = some k' → k' ∈ k ::ₘ R := fun k' hb => mem_cons_of_mem (w.held k' hb)
  refine hwp_iget_mem hs ?_
  rcases hcases with ⟨hr, hi, hm⟩ | ⟨h0, hun, hm⟩
  · rw [hm]
    refine hQ (h.setSlot k fun ip => { ip with ref := ip.ref + 1 }) ?_ ?_ (fun k' _ => ?_) (Or.inl hr)
    · refine w.setSlot (w.inv.setSlot_same hlt hr _ rfl (w.inv.rep.cache k hlt hr)) (fun _ => ?_) hcount
        (fun _ => w.inum k hlt) (fun _ _ => w.busy k hlt hr) (fun _ _ => Iff.rfl)
        (fun _ _ => w.alive k hlt hr) hltR hheld
      have h1 := w.ref k hlt
      rw [count_cons_self]
      change (h.mem.icache k).ref + 1 = _
      omega
    · rw [Home.setSlot_self]
      exact hi
    · by_cases hne : k' = k
      · subst hne
        rw [Home.setSlot_self]
      · rw [Home.setSlot_of_ne _ hne]
  · rw [hm]
    have hz : (h₀.mem.icache k).ref = 0 ∧ R.count k = 0 := by
      have := w.ref k hlt
      omega
    refine hQ (h.setSlot k (freshSlot j)) ?_ ?_ (fun k' hr => ?_) (Or.inr ?_)
    · refine w.setSlot (w.inv.setSlot _ (fun _ hv => nomatch hv)
          fun _ => ⟨hj, fun k' hk' _ hr => hun k' hk' hr⟩) (fun _ => ?_) hcount
        (fun _ hpos => absurd hpos (by omega)) (fun _ _ => iff_of_false Bool.false_ne_true ?_)
        (fun _ _ => Iff.rfl) (fun _ _ hv => nomatch hv) hltR hheld
      · rw [count_cons_self, hz.1, hz.2]
        rfl
      · intro hb
        exact count_eq_zero.mp hz.2 (w.held k hb)
    · rw [Home.setSlot_self]
      rfl
    · rw [Home.setSlot_of_ne _ (fun he => by rw [he, h0] at hr; exact absurd hr (lt_irrefl 0))]
    · rw [Home.setSlot_self]
      rfl

theorem hwp_iunlockput (w : Walk sb D h₀ h R (some k))
    (hlive : 0 < (h₀.mem.icache k).ref ∨ (D (h.mem.icache k).inum).nlink ≠ 0)
    {Q : Unit → Home → Prop}
    (hQ : ∀ h', Walk sb D h₀ h' (R.erase k) none →
      (∀ k', (h'.mem.icache k').inum = (h.mem.icache k').inum) → Q () h') :
    hwp J (iunlockput k) Q h := by
  refine hwp_bind (w.hwp_iunlock fun h₁ w₁ hi₁ => ?_)
  refine w₁.hwp_iput (w.held k rfl) nofun (hlive.imp_right fun hl _ => ?_) fun h₂ w₂ hi₂ => ?_
  · rw [hi₁]
    exact hl
  · exact hQ h₂ w₂ fun k' => (hi₂ k').trans (hi₁ k')

end Walk

/-- Two slots of the cache are free. -/
def Spare (m : Mem) : Prop :=
  ∃ k₁ < NINODE, ∃ k₂ < NINODE, k₁ ≠ k₂ ∧ (m.icache k₁).ref = 0 ∧ (m.icache k₂).ref = 0

theorem Walk.exists_slot (w : Walk sb D h₀ h R b) (hs : Spare h₀.mem) (hR : R.card ≤ 1) (j : Nat) :
    ∃ k, igetSlot h.mem.icache j = some k := by
  obtain ⟨k₁, h1, k₂, h2, hne, z1, z2⟩ := hs
  have hfree : ∃ k < NINODE, (h.mem.icache k).ref = 0 := by
    by_cases hk : k₁ ∈ R
    · refine ⟨k₂, h2, ?_⟩
      have hR' : R = {k₁} := by
        obtain ⟨T, rfl⟩ := exists_cons_of_mem hk
        rw [card_cons] at hR
        rw [card_eq_zero.mp (show T.card = 0 by omega)]
        rfl
      rw [w.ref k₂ h2, z2, hR', count_singleton, if_neg hne.symm]
    · exact ⟨k₁, h1, by rw [w.ref k₁ h1, z1, count_eq_zero.mpr hk]⟩
  obtain ⟨k, hk, hz⟩ := hfree
  unfold igetSlot
  cases cachedSlot h.mem.icache j with
  | some k' => exact ⟨k', rfl⟩
  | none =>
    refine Option.isSome_iff_exists.mp ?_
    rw [Option.none_or, emptySlot, List.find?_isSome]
    exact ⟨k, List.mem_range.mpr hk, decide_eq_true hz⟩

/-- A directory as the kernel leaves it: whole entries with numbers of inodes, and it has links if nobody
holds a reference to it. -/
structure Orderly (sb : Superblock) (h₀ : Home) (D : Nat → Dinode) (i : Nat) : Prop where
  whole : (D i).type = T_DIR → (D i).size % DESIZE = 0
  inums : (D i).type = T_DIR → ∀ t v nm, entries sb D h₀.buf i t = some (v, nm) → v < sb.ninodes
  linked : (D i).nlink ≠ 0 ∨ ∃ k < NINODE, 0 < (h₀.mem.icache k).ref ∧ (h₀.mem.icache k).inum = i

theorem Orderly.live (ho : Orderly sb h₀ D i) (w : Walk sb D h₀ h R b) (hk : k ∈ R)
    (hi : (h.mem.icache k).inum = i) :
    0 < (h₀.mem.icache k).ref ∨ (D (h.mem.icache k).inum).nlink ≠ 0 := by
  rcases ho.linked with hl | ⟨k', hlt, hr, hi'⟩
  · exact Or.inr (hi.symm ▸ hl)
  · -- the slot that held it at the beginning is this one
    have href : 0 < (h.mem.icache k').ref := by
      rw [w.ref k' hlt]
      omega
    obtain rfl := w.inv.rep.uniq k' hlt k (w.lt k hk) href (w.ref_pos hk)
      (by rw [w.inum k' hlt hr, hi', hi])
    exact Or.inl hr

/-! ### The loop of `namex` -/

theorem hwp_namexLoop (hm : ∀ j, Used sb D j → Mapped sb D h₀.buf j) (hl : h₀.locked = ∅)
    (hsp : Spare h₀.mem) (parent : Bool) {Q : Option (Nat × List UInt8) → Home → Prop} (n : Nat) :
    ∀ h ip i path name, path.length < n → Walk sb D h₀ h {ip} none → (h.mem.icache ip).inum = i →
      (elements path = [] → 0 < (h₀.mem.icache ip).ref ∨
        ((h.mem.icache ip).valid = true → (D (h.mem.icache ip).inum).nlink ≠ 0) ∨ parent = false) →
      Along sb D h₀.buf (Orderly sb h₀ D) i (elements path) →
      (J.stop (.panic "ilock: no type") ∨ Along sb D h₀.buf (Used sb D) i (elements path)) →
      (Along sb D h₀.buf (Used sb D) i (elements path) →
        descend sb D h₀.buf parent i name (elements path) = none →
        ∀ h', Walk sb D h₀ h' 0 none → Q none h') →
      (∀ j nm k h', Along sb D h₀.buf (Used sb D) i (elements path) →
        descend sb D h₀.buf parent i name (elements path) = some (j, nm) →
        Walk sb D h₀ h' {k} none → (h'.mem.icache k).inum = j → Q (some (k, nm)) h') →
      hwp J (namexLoop parent n ip path name) Q h := by
  induction n with
  | zero => exact fun h ip i path name hlen => absurd hlen (Nat.not_lt_zero _)
  | succ n ih =>
    intro h ip i path name hlen w hi hlive ho htype hnone hsome
    have hself : ip ∈ ({ip} : Multiset Nat) := mem_singleton_self ip
    have herase : ({ip} : Multiset Nat).erase ip = 0 := erase_cons_head ip 0
    rw [namexLoop]
    cases hs : skipelem path with
    | none =>
      -- no component is left
      rw [skipelem_eq_none hs] at hlive hnone hsome
      cases parent with
      | true =>
        refine hwp_bind (w.hwp_iput hself (by rintro ⟨⟩) ?_ fun h' w' _ =>
          hwp_pure (hnone trivial rfl h' ?_))
        · rcases hlive rfl with h1 | h1 | h1
          · exact Or.inl h1
          · exact Or.inr h1
          · cases h1
        · exact herase ▸ w'
      | false => exact hwp_pure (hsome i name ip h trivial rfl w hi)
    | some p =>
      obtain ⟨rest, nm⟩ := p
      obtain ⟨hel, hlast⟩ := skipelem_eq_some hs
      have hshort := length_skipelem hs
      rw [hel] at ho htype hnone hsome
      rw [descend] at hnone hsome
      have hlocked : h.locked = ∅ := by rw [w.eq]; exact hl
      refine hwp_bind (w.hwp_ilock hself hlocked (htype.imp_right fun ha => hi.symm ▸ ha.1)
        fun h₁ hused w₁ hv₁ hi₁ => hwp_bind (hwp_get ?_))
      rw [hi] at hused
      have hi₁ip : (h₁.mem.icache ip).inum = i := (hi₁ ip).trans hi
      have hc : Cached sb h₁ D ip i := ⟨w₁.lt ip hself, w₁.ref_pos hself, hv₁, hi₁ip, hused⟩
      have hbuf₁ : h₁.buf = h₀.buf := by rw [w₁.eq]
      rw [w₁.inv.din_eq hc]
      by_cases hd : (D i).type = T_DIR
      · rw [if_neg (not_not.mpr hd)]
        rw [if_neg (not_not.mpr hd)] at hnone hsome
        by_cases hp : parent = true ∧ rest = []
        · -- one level early
          rw [if_pos hp]
          rw [if_pos ⟨hp.1, hlast.mp hp.2⟩] at hnone hsome
          refine hwp_bind (w₁.hwp_iunlock fun h₂ w₂ hi₂ => hwp_pure ?_)
          refine hsome i nm ip h₂ ⟨hused, fun j t _ _ => ?_⟩ rfl w₂ ((hi₂ ip).trans hi₁ip)
          rw [hlast.mp hp.2]
          trivial
        · rw [if_neg hp]
          rw [if_neg fun hp' => hp ⟨hp'.1, hlast.mpr hp'.2⟩] at hnone hsome
          have hld : LockedDir sb h₁ D ip i := ⟨hc, hd, ho.1.whole hd⟩
          have hl₁ : h₁.locked = ∅ := by rw [w₁.eq]; exact hl
          refine hwp_bind (hwp_dirlookup w₁.inv hld hl₁ (hbuf₁ ▸ hm i hused) (fun hno => ?_)
            fun j t hyes => ?_)
          · -- not there
            rw [hbuf₁] at hno
            refine hwp_bind (w₁.hwp_iunlockput (ho.1.live w₁ hself hi₁ip) fun h₂ w₂ _ => hwp_pure ?_)
            rw [hno] at hnone
            refine hnone ⟨hused, fun j t _ hyes => ?_⟩ rfl h₂ (herase ▸ w₂)
            rw [hno] at hyes
            cases hyes
          · rw [hbuf₁] at hyes
            have hj : j < sb.ninodes := ho.1.inums hd t j _ (SlotMap.findFrom_eq_some hyes)
            obtain ⟨k, hk⟩ := w₁.exists_slot hsp (card_singleton ip).le j
            refine w₁.hwp_iget hk hj fun h₂ w₂ hk₂ hi₂ _ => ?_
            have hip₂ : ip ∈ k ::ₘ ({ip} : Multiset Nat) := mem_cons_of_mem hself
            have hi₂ip : (h₂.mem.icache ip).inum = i := (hi₂ ip (w₁.ref_pos hself)).trans hi₁ip
            refine hwp_bind (w₂.hwp_iunlockput (ho.1.live w₂ hip₂ hi₂ip) fun h₃ w₃ hi₃ => ?_)
            have hR : (k ::ₘ ({ip} : Multiset Nat)).erase ip = {k} := by
              rw [← singleton_add, add_comm]
              exact erase_cons_head ip {k}
            rw [hyes] at hnone hsome
            refine ih h₃ k j rest nm (by omega) (hR ▸ w₃) ((hi₃ k).trans hk₂) (fun he => ?_)
              (ho.2 j t hd hyes) (htype.imp_right fun ha => ha.2 j t hd hyes) (fun ha => ?_)
              fun j' nm' k' h' ha => ?_
            · -- the last component is looked up for `namei` only
              refine Or.inr (Or.inr (Bool.eq_false_iff.mpr fun ht => hp ⟨ht, hlast.mpr he⟩))
            · refine hnone ⟨hused, fun j' t' _ hyes' => ?_⟩
              rw [hyes] at hyes'
              cases hyes'
              exact ha
            · refine hsome j' nm' k' h' ⟨hused, fun j' t' _ hyes' => ?_⟩
              rw [hyes] at hyes'
              cases hyes'
              exact ha
      · -- not a directory
        rw [if_pos hd]
        rw [if_pos hd] at hnone
        refine hwp_bind (w₁.hwp_iunlockput (ho.1.live w₁ hself hi₁ip) fun h₂ w₂ _ => hwp_pure ?_)
        exact hnone ⟨hused, fun j t hd' => absurd hd' hd⟩ rfl h₂ (herase ▸ w₂)

/-! ### Path resolution -/

/-- The cache while no call is under way: no inode is locked, those that have been read are
allocated, and two slots are free. -/
structure Quiescent (sb : Superblock) (h : Home) (D : Nat → Dinode) : Prop where
  idle : ∀ k < NINODE, 0 < (h.mem.icache k).ref → (h.mem.icache k).busy = false
  alive : ∀ k < NINODE, 0 < (h.mem.icache k).ref → (h.mem.icache k).valid = true →
    Used sb D (h.mem.icache k).inum
  spare : Spare h.mem

theorem Quiescent.walk (hq : Quiescent sb h D) (hf : FsInv sb h D noStale) :
    Walk sb D h h 0 none where
  inv := hf
  eq := rfl
  ref k _ := by rw [count_zero, Nat.add_zero]
  inum _ _ _ := rfl
  busy k hk hr := iff_of_false (by rw [hq.idle k hk hr]; decide) nofun
  alive := hq.alive
  lt k hk := absurd hk (notMem_zero k)
  held k hk := nomatch hk

/-- The inode that a path starts from. -/
def StartsAt (sb : Superblock) (m : Mem) (path : Path) (i : Nat) : Prop :=
  if path.head? = some slash then i = ROOTINO ∧ i < sb.ninodes
  else ∃ k < NINODE, (m.procs m.proc).bind Proc.cwd = some k ∧ 0 < (m.icache k).ref ∧
    (m.icache k).inum = i

theorem hwp_namex (hs : Sound sb s h D) (hq : Quiescent sb h D) (hstart : StartsAt sb h.mem path i)
    (ho : Along sb D h.buf (Orderly sb h D) i (elements path))
    (htype : J.stop (.panic "ilock: no type") ∨ Along sb D h.buf (Used sb D) i (elements path))
    (parent : Bool) {Q : Option (Nat × List UInt8) → Home → Prop}
    (hnone : Along sb D h.buf (Used sb D) i (elements path) →
      descend sb D h.buf parent i [] (elements path) = none →
      ∀ h', Walk sb D h h' 0 none → Q none h')
    (hsome : ∀ j nm k h', Along sb D h.buf (Used sb D) i (elements path) →
      descend sb D h.buf parent i [] (elements path) = some (j, nm) →
      Walk sb D h h' {k} none → (h'.mem.icache k).inum = j → Q (some (k, nm)) h') :
    hwp J (namex path parent) Q h := by
  have w := hq.walk hs.inv
  have hloop := hwp_namexLoop (J := J) (Q := Q) hs.mapped hs.unlocked hq.spare parent (path.length + 1)
  unfold namex
  unfold StartsAt at hstart
  split at hstart
  · -- from the root
    next hroot =>
    obtain ⟨rfl, hlt⟩ := hstart
    rw [if_pos hroot]
    obtain ⟨k, hk⟩ := w.exists_slot hq.spare (Nat.zero_le 1) ROOTINO
    refine hwp_bind (w.hwp_iget hk hlt fun h₁ w₁ hi₁ _ hfresh => ?_)
    refine hloop h₁ k ROOTINO path [] (Nat.lt_succ_self _) w₁ hi₁ (fun _ => ?_) ho htype hnone hsome
    rcases hfresh with hr | hv
    · exact Or.inl hr
    · refine Or.inr (Or.inl fun hv' => ?_)
      rw [hv] at hv'
      cases hv'
  · -- from the current directory
    next hroot =>
    obtain ⟨k, hlt, hcwd, hr, hi⟩ := hstart
    rw [if_neg hroot]
    refine hwp_bind (hwp_bind (hwp_get ?_))
    rw [hcwd]
    refine hwp_bind (hwp_yield (hwp_bind (hwp_modify rfl (hwp_pure ?_))))
    have w₁ : Walk sb D h (h.setSlot k fun ip => { ip with ref := ip.ref + 1 }) {k} none := by
      refine w.setSlot (w.inv.setSlot_same hlt hr _ rfl (w.inv.rep.cache k hlt hr)) (fun _ => ?_)
        (fun k' hne => ?_) (fun _ => w.inum k hlt) (fun _ _ => w.busy k hlt hr) (fun _ _ => Iff.rfl)
        (fun _ _ => w.alive k hlt hr) (fun k' hk' => ?_) nofun
      · rw [count_singleton_self]
      · rw [count_singleton, if_neg hne, count_zero]
      · rw [mem_singleton.mp hk']
        exact hlt
    exact hloop _ k i path [] (Nat.lt_succ_self _) w₁
      ((congrArg Inode.inum (Home.setSlot_self _)).trans hi) (fun _ => Or.inl hr) ho htype hnone hsome

/-- The references to inode `v`, of all slots of the cache. -/
def refCount (m : Mem) (v : Nat) : Nat :=
  ∑ k ∈ Finset.range NINODE, if (m.icache k).inum = v then (m.icache k).ref else 0

theorem Walk.refCount_eq (w : Walk sb D h₀ h R b) (v : Nat) : refCount h.mem v = refCount h₀.mem v +
    ∑ k ∈ Finset.range NINODE, if (h.mem.icache k).inum = v then R.count k else 0 := by
  unfold refCount
  rw [← Finset.sum_add_distrib]
  refine Finset.sum_congr rfl fun k hk => ?_
  have hlt := Finset.mem_range.mp hk
  rw [w.ref k hlt]
  by_cases h0 : 0 < (h₀.mem.icache k).ref
  · rw [w.inum k hlt h0]
    split <;> rfl
  · rw [Nat.eq_zero_of_not_pos h0, Nat.zero_add, ite_self, Nat.zero_add]

theorem Walk.refCount_zero (w : Walk sb D h₀ h 0 b) (v : Nat) :
    refCount h.mem v = refCount h₀.mem v := by
  rw [w.refCount_eq, Finset.sum_eq_zero, Nat.add_zero]
  intro k _
  rw [count_zero, ite_self]

theorem Walk.refCount_singleton (w : Walk sb D h₀ h {k} b) (v : Nat) :
    refCount h.mem v = refCount h₀.mem v + if (h.mem.icache k).inum = v then 1 else 0 := by
  rw [w.refCount_eq, Finset.sum_eq_single k]
  · rw [count_singleton_self]
  · intro k' _ hne
    rw [count_singleton, if_neg hne, ite_self]
  · intro hk
    exact absurd (Finset.mem_range.mpr (w.lt k (mem_singleton_self k))) hk

theorem Walk.sound (w : Walk sb D h h' R b) (hs : Sound sb s h D) {s' : KState} (hv : View s' h') :
    Sound sb s' h' D := by
  have hbuf : h'.buf = h.buf := by rw [w.eq]
  have hlog : h'.mem.log = h.mem.log := by rw [w.eq]
  have hl : h'.locked = h.locked := by rw [w.eq]
  have hp : h'.passed = h.passed := by rw [w.eq]
  exact ⟨hv, w.inv, hbuf ▸ hs.mapped, hl.trans hs.unlocked, hlog ▸ hs.nlog, hp.trans hs.passed⟩

theorem run_of_walk (hs : Sound sb s h D) (hroom : h.mem.log.lh.length ≤ ROOM) {α : Type} {p : K α}
    {Q : α → Home → Prop} (hp : hwp total p Q h)
    (hQ : ∀ a h', Q a h' → ∃ R b, Walk sb D h h' R b) :
    ∃ a s' h', run limits true p s = .ok a s' ∧ View s' h' ∧ Q a h' := by
  refine run_of_total hp hs.view fun a s' h' _ hq' => ?_
  obtain ⟨R, b, w⟩ := hQ a h' hq'
  rw [w.eq]
  exact ⟨hs.nlog, hs.passed, hroom⟩

/-- `dirlookup` of the last component in the directory that `nameiparent` finds. -/
def lookupInParent (path : Path) : K (Option (Nat × Nat)) := do
  match ← nameiparent path with
  | none => return none
  | some (dp, name) =>
    ilock dp
    dirlookup dp name

/-- Path resolution as it should be: the calls return what the fold over the components gives, and
hold a reference to that and to nothing else. -/
structure Resolves (sb : Superblock) (s : KState) (h : Home) (D : Nat → Dinode) (path : Path)
    (i : Nat) : Prop where
  namei : ∃ r s' h', run limits true (namei path) s = .ok r s' ∧ Sound sb s' h' D ∧ h'.buf = h.buf ∧
    (r.map fun k => (s'.mem.icache k).inum) = resolve sb D h.buf i (elements path) ∧
    ∀ v, refCount s'.mem v = refCount s.mem v +
      if resolve sb D h.buf i (elements path) = some v then 1 else 0
  nameiparent : ∃ r s' h', run limits true (nameiparent path) s = .ok r s' ∧ Sound sb s' h' D ∧
    h'.buf = h.buf ∧ (r.map fun e => ((s'.mem.icache e.1).inum, e.2))
      = resolveParent sb D h.buf i (elements path) ∧
    ∀ v, refCount s'.mem v = refCount s.mem v +
      if (resolveParent sb D h.buf i (elements path)).map Prod.fst = some v then 1 else 0
  agree : ∀ j, resolve sb D h.buf i (elements path) = some j → elements path ≠ [] →
    ∃ k off s', run limits true (lookupInParent path) s = .ok (some (k, off)) s' ∧
      (s'.mem.icache k).inum = j

section Calls

variable (hs : Sound sb s h D) (hq : Quiescent sb h D) (hstart : StartsAt sb h.mem path i)
  (ho : Along sb D h.buf (Orderly sb h D) i (elements path))
include hs hq hstart ho

theorem hwp_namei
    (htype : J.stop (.panic "ilock: no type") ∨ Along sb D h.buf (Used sb D) i (elements path)) :
    hwp J (namei path) (fun r h' => Along sb D h.buf (Used sb D) i (elements path) ∧
      match r with
      | none => resolve sb D h.buf i (elements path) = none ∧ Walk sb D h h' 0 none
      | some k => resolve sb D h.buf i (elements path) = some (h'.mem.icache k).inum ∧
          Walk sb D h h' {k} none) h := by
  refine hwp_bind (hwp_namex hs hq hstart ho htype false (fun ha hd h' w => hwp_pure ⟨ha, ?_, w⟩)
    fun j nm k h' ha hd w hj => hwp_pure ⟨ha, ?_, w⟩)
  · rw [← descend_false, hd]
    rfl
  · rw [← descend_false, hd, hj]
    rfl

theorem hwp_nameiparent
    (htype : J.stop (.panic "ilock: no type") ∨ Along sb D h.buf (Used sb D) i (elements path)) :
    hwp J (nameiparent path) (fun r h' =>
      match r with
      | none => resolveParent sb D h.buf i (elements path) = none ∧ Walk sb D h h' 0 none
      | some (k, nm) => resolveParent sb D h.buf i (elements path) = some ((h'.mem.icache k).inum, nm) ∧
          Walk sb D h h' {k} none) h := by
  refine hwp_namex hs hq hstart ho htype true (fun _ hd h' w => ⟨?_, w⟩)
    fun j nm k h' _ hd w hj => ⟨?_, w⟩
  · rw [← descend_true [], hd]
  · rw [← descend_true [], hd, hj]

theorem hwp_lookupInParent (ha : Along sb D h.buf (Used sb D) i (elements path))
    (hj : resolve sb D h.buf i (elements path) = some j) (hne : elements path ≠ []) :
    hwp total (lookupInParent path) (fun r h' => ∃ k off, r = some (k, off) ∧
      (h'.mem.icache k).inum = j ∧ ∃ R b, Walk sb D h h' R b) h := by
  obtain ⟨p, nm, t, hp, hd, hlook⟩ := resolve_eq_some hj hne
  refine hwp_bind (hwp_mono (hwp_nameiparent hs hq hstart ho (Or.inr ha)) fun r h₁ hr => ?_)
  cases r with
  | none =>
    rw [hp] at hr
    exact nomatch hr.1
  | some e =>
    obtain ⟨k, nm'⟩ := e
    obtain ⟨hp', w₁⟩ := hr
    rw [hp] at hp'
    obtain ⟨hpk, rfl⟩ := Prod.mk.inj (Option.some.inj hp')
    have hself : k ∈ ({k} : Multiset Nat) := mem_singleton_self k
    have hl₁ : h₁.locked = ∅ := by rw [w₁.eq]; exact hs.unlocked
    have hused : Used sb D p := ha.parent hp
    have hord : Orderly sb h D p := ho.parent hp
    refine hwp_bind (w₁.hwp_ilock hself hl₁ (Or.inr (hpk ▸ hused)) fun h₂ _ w₂ hv₂ hi₂ => ?_)
    have hbuf₂ : h₂.buf = h.buf := by rw [w₂.eq]
    have hl₂ : h₂.locked = ∅ := by rw [w₂.eq]; exact hs.unlocked
    have hc : Cached sb h₂ D k p :=
      ⟨w₂.lt k hself, w₂.ref_pos hself, hv₂, (hi₂ k).trans hpk.symm, hused⟩
    refine hwp_dirlookup w₂.inv ⟨hc, hd, hord.whole hd⟩ hl₂ (hbuf₂ ▸ hs.mapped p hused)
      (fun hno => ?_) fun v t' hyes => ?_
    · rw [hbuf₂, hlook] at hno
      cases hno
    · rw [hbuf₂, hlook] at hyes
      cases hyes
      obtain ⟨k', hk'⟩ := w₂.exists_slot hq.spare (card_singleton k).le j
      refine w₂.hwp_iget hk' (hord.inums hd t j _ (SlotMap.findFrom_eq_some hlook))
        fun h₃ w₃ hi₃ _ _ => ⟨k', _, rfl, hi₃, _, _, w₃⟩

variable (hroom : h.mem.log.lh.length ≤ ROOM)
include hroom

theorem resolves_of_along (ha : Along sb D h.buf (Used sb D) i (elements path)) :
    Resolves sb s h D path i := by
  have hmem : s.mem = h.mem := hs.view.mem
  refine ⟨?_, ?_, fun j hj hne => ?_⟩
  · obtain ⟨r, s', h', hrun, hv, -, hr⟩ := run_of_walk hs hroom
      (hwp_namei hs hq hstart ho (Or.inr ha)) fun r h' hQ => by
        cases r with
        | none => exact ⟨_, _, hQ.2.2⟩
        | some k => exact ⟨_, _, hQ.2.2⟩
    have hmem' : s'.mem = h'.mem := hv.mem
    rw [hmem]
    cases r with
    | none =>
      obtain ⟨hres, w⟩ := hr
      refine ⟨none, s', h', hrun, w.sound hs hv, by rw [w.eq], hres.symm, fun v => ?_⟩
      rw [hmem', hres, w.refCount_zero, if_neg nofun, Nat.add_zero]
    | some k =>
      obtain ⟨hres, w⟩ := hr
      refine ⟨some k, s', h', hrun, w.sound hs hv, by rw [w.eq], ?_, fun v => ?_⟩
      · rw [hmem', hres]
        rfl
      · rw [hmem', hres, w.refCount_singleton]
        simp only [Option.some.injEq]
  · obtain ⟨r, s', h', hrun, hv, hr⟩ := run_of_walk hs hroom
      (hwp_nameiparent hs hq hstart ho (Or.inr ha)) fun r h' hQ => by
        cases r with
        | none => exact ⟨_, _, hQ.2⟩
        | some k => exact ⟨_, _, hQ.2⟩
    have hmem' : s'.mem = h'.mem := hv.mem
    rw [hmem]
    cases r with
    | none =>
      obtain ⟨hres, w⟩ := hr
      refine ⟨none, s', h', hrun, w.sound hs hv, by rw [w.eq], hres.symm, fun v => ?_⟩
      rw [hmem', hres, w.refCount_zero, Option.map_none, if_neg nofun, Nat.add_zero]
    | some e =>
      obtain ⟨k, nm⟩ := e
      obtain ⟨hres, w⟩ := hr
      refine ⟨some (k, nm), s', h', hrun, w.sound hs hv, by rw [w.eq], ?_, fun v => ?_⟩
      · rw [hmem', hres]
        rfl
      · rw [hmem', hres, w.refCount_singleton]
        simp only [Option.map_some, Option.some.injEq]
  · obtain ⟨r, s', h', hrun, hv, k, off, rfl, hi, -⟩ := run_of_walk hs hroom
      (hwp_lookupInParent hs hq hstart ho ha hj hne) fun r h' ⟨_, _, _, _, hw⟩ => hw
    have hmem' : s'.mem = h'.mem := hv.mem
    exact ⟨k, off, s', hrun, by rw [hmem', hi]⟩

end Calls

/-- A policy for runs that may panic. -/
def partly : Policy Event := ⟨fun _ => True, fun _ => True, fun _ => True⟩

/-- The kernel before it starts, on a fresh image. -/
def freshBoot (sb : Superblock) : Compact Mem Event where
  disk := freshImage sb
  buf := freshImage sb
  busy := 0
  dirty := 0
  writes := []
  events := []
  passed := false
  mem := bootMem

theorem freshBoot_machine (sb : Superblock) : (freshBoot sb).machine = boot (freshImage sb) := by
  unfold Compact.machine freshBoot boot
  rw [maskSet_zero]

/-- The first process makes `/a/b`, goes there, and removes it and then `/a`. -/
def removedCwd : List (Nat × Call) :=
  [(0, .mkdir (some [slash, 97])), (0, .mkdir (some [slash, 97, slash, 98])),
    (0, .chdir (some [slash, 97, slash, 98])), (0, .unlink (some [slash, 97, slash, 98])),
    (0, .unlink (some [slash, 97]))]

set_option maxRecDepth 100000 in
theorem removedCwd_eval : (eval limits (do start; calls removedCwd) (freshBoot mkfsSuperblock)).returned
    (fun c => decide ((eval limits (namei [46, 46, slash, 99]) c).stopped
      = some (.panic "ilock: no type"))) = true := by decide +kernel

end Xv6
