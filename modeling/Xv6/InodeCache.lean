import Xv6.Icache

/-!
# The inode cache invariant

What holds of the cache itself (`Cache`): the counts are those of the references there are, no inode
has two slots, `I_BUSY` of a slot was set by one process with one reference, and a slot that nobody
has locked is as the last holder of the lock left it, or empty. What each process may rely on where
it is (`At`): its call has a reference, the inodes it has locked are its own, and while it holds
`icache.lock` what it has seen of the slots stays true. And a reference that a process gives up is
used by no other (`Inv.apart`), also while `iput` frees the inode without `icache.lock`.
-/

open Function

namespace Xv6

namespace Icache

variable {m n : Nat}

/-! ### The invariant -/

/-- The process holds `icache.lock`. -/
def owns : Pc n → Bool
  | .scan _ _ _ _ => true
  | .incr _ => true
  | .lockTest _ => true
  | .lockLeave _ => true
  | .clearBusy _ => true
  | .unlockWakeup _ => true
  | .putTest _ => true
  | .putLeave _ => true
  | .putClear _ => true
  | .putWakeup _ => true
  | .putDrop _ => true
  | .leave => true
  | _ => false

/-- The reference with which the process has set `I_BUSY`, in the call it is in. -/
def holding : Pc n → Option (Ref n)
  | .lockLeave r => some r
  | .fill r => some r
  | .validate r => some r
  | .locked r => some r
  | .iunlock r => some r
  | .clearBusy r => some r
  | .putLeave r => some r
  | .putTrunc r => some r
  | .putTruncated r => some r
  | .putType r => some r
  | .putUpdate r => some r
  | .putEnter r => some r
  | .putClear r => some r
  | _ => none

/-- The reference with which the process locks an inode that may have to be read. -/
def filling : Pc n → Option (Ref n)
  | .lockLeave r => some r
  | .fill r => some r
  | .validate r => some r
  | _ => none

/-- What a slot that nobody is changing has to offer to the next holder of its lock. -/
def stored (ip : Inode) : Option Dinode := if ip.valid then some ip.din else none

/-- What process `p` may rely on at `c`. -/
structure At (s : State m n) (p : Fin m) (c : Pc n) : Prop where
  absent : ∀ dev inum i e, c = .scan dev inum i e → ∀ j : Fin n, j.val < i → 0 < (s.inode j).ref →
    (s.inode j).key ≠ (dev, inum)
  empty : ∀ dev inum i e, c = .scan dev inum i (some e) → (s.inode e).ref = 0
  ref : ∀ r, refOf c = some r → r ∈ s.refs
  held : ∀ r ∈ s.held p, r ∈ s.refs
  holding : ∀ r, holding c = some r → r ∈ s.held p
  valid : ∀ r ∈ s.held p, filling c ≠ some r → (s.inode r.2).valid = true
  entering : ∀ r, c = .lockLeave r ∨ c = .fill r → s.left r.2 = stored (s.inode r.2)
  validate : ∀ r, c = .validate r → (s.inode r.2).valid = false ∧ s.left r.2 = none ∧
    ((s.inode r.2).din = s.disk (s.inode r.2).key ∨ (s.inode r.2).din.type = 0)
  locked : ∀ r, c = .locked r → s.left r.2 = some (s.inode r.2).din ∨
    s.left r.2 = none ∧ (s.inode r.2).din = s.disk (s.inode r.2).key ∧ (s.inode r.2).din.type ≠ 0
  put : ∀ r, putOf c = some r → r ∈ s.held p → Icache.holding c = some r

/-- What holds of the cache. -/
structure Cache (s : State m n) : Prop where
  ref : ∀ i, (s.inode i).ref = s.refs.countP (·.2 = i)
  ids : (s.refs.map Prod.fst).Nodup
  old : ∀ r ∈ s.refs, r.1 < s.fresh
  unique : ∀ i j, 0 < (s.inode i).ref → 0 < (s.inode j).ref → (s.inode i).key = (s.inode j).key → i = j
  busy : ∀ i, (s.inode i).busy = true ↔ ∃ p r, r ∈ s.held p ∧ r.2 = i
  one : ∀ p q r r', r ∈ s.held p → r' ∈ s.held q → r.2 = r'.2 → p = q ∧ r = r'
  nodup : ∀ p, (s.held p).Nodup
  left : ∀ i, (s.inode i).busy = false → s.left i = stored (s.inode i)

structure Inv (s : State m n) : Prop where
  lock : ∀ p, s.lock = some p ↔ owns (s.pc p) = true
  cache : Cache s
  procs : ∀ p, At s p (s.pc p)
  apart : ∀ p q, q ≠ p → ∀ r, putOf (s.pc p) = some r → refOf (s.pc q) ≠ some r ∧ r ∉ s.held q

theorem inv_init (disk : Nat × Nat → Dinode) : Inv (init disk : State m n) where
  lock _ := iff_of_false nofun nofun
  cache :=
    { ref := fun _ => rfl
      ids := List.nodup_nil
      old := nofun
      unique := nofun
      busy := fun _ => iff_of_false nofun nofun
      one := nofun
      nodup := fun _ => List.nodup_nil
      left := fun _ _ => rfl }
  procs _ := ⟨nofun, nofun, nofun, nofun, nofun, nofun, by nofun, nofun, nofun, nofun⟩
  apart _ _ _ _ := nofun

section Steps

variable {s t : State m n} {p q : Fin m} {c : Pc n} {r : Ref n} {i : Fin n}

theorem refOf_of_putOf (h : putOf c = some r) : refOf c = some r := by
  cases c <;> first | exact h | cases h

/-- The slot is the same but for its count and `I_BUSY`. -/
def Same (a b : Inode) : Prop := a.key = b.key ∧ a.valid = b.valid ∧ a.din = b.din

/-- A process depends on its references and on the inodes it has locked, and on all slots while it
holds the lock. -/
theorem At.frame (h : At s q c) (hheld : t.held q = s.held q)
    (hrefs : ∀ r, refOf c = some r ∨ r ∈ s.held q → r ∈ s.refs → r ∈ t.refs)
    (hslot : ∀ r ∈ s.held q, Same (t.inode r.2) (s.inode r.2) ∧ t.left r.2 = s.left r.2)
    (hdisk : ∀ r ∈ s.held q, t.disk (s.inode r.2).key = s.disk (s.inode r.2).key ∨
      (s.disk (s.inode r.2).key).type = 0)
    (hscan : owns c = true → ∀ j, (t.inode j).key = (s.inode j).key ∧ (t.inode j).ref = (s.inode j).ref) :
    At t q c where
  absent dev inum i e hc j hj := by
    obtain ⟨hkey, href⟩ := hscan (hc ▸ rfl) j
    rw [hkey, href]
    exact h.absent dev inum i e hc j hj
  empty dev inum i e hc := by
    rw [(hscan (hc ▸ rfl) e).2]
    exact h.empty dev inum i e hc
  ref r hr := hrefs r (.inl hr) (h.ref r hr)
  held r hr := by
    rw [hheld] at hr
    exact hrefs r (.inr hr) (h.held r hr)
  holding r hr := hheld ▸ h.holding r hr
  valid r hr hf := by
    rw [hheld] at hr
    rw [(hslot r hr).1.2.1]
    exact h.valid r hr hf
  entering r hc := by
    have hr : r ∈ s.held q := h.holding r (by rcases hc with rfl | rfl <;> rfl)
    obtain ⟨⟨-, hv, hd⟩, hl⟩ := hslot r hr
    rw [hl, stored, hv, hd]
    exact h.entering r hc
  validate r hc := by
    have hr : r ∈ s.held q := h.holding r (by rw [hc]; rfl)
    obtain ⟨⟨hk, hv, hd⟩, hl⟩ := hslot r hr
    obtain ⟨h1, h2, h3⟩ := h.validate r hc
    rw [hv, hl, hd, hk]
    refine ⟨h1, h2, ?_⟩
    rcases hdisk r hr with e | e
    · rwa [e]
    · exact .inr (h3.elim (fun e' => e' ▸ e) id)
  locked r hc := by
    have hr : r ∈ s.held q := h.holding r (by rw [hc]; rfl)
    obtain ⟨⟨hk, hv, hd⟩, hl⟩ := hslot r hr
    rw [hl, hd, hk]
    refine (h.locked r hc).imp id fun ⟨h1, h2, h3⟩ => ⟨h1, ?_, h3⟩
    rcases hdisk r hr with e | e
    · rwa [e]
    · exact absurd (h2 ▸ e) h3
  put r hr hm := h.put r hr (hheld ▸ hm)

/-- The instructions at which a process has nothing to remember but its references and locks. -/
def plain : Pc n → Bool
  | .scan _ _ _ _ => false
  | .lockLeave _ => false
  | .fill _ => false
  | .validate _ => false
  | .locked _ => false
  | _ => true

theorem At.of_plain (hc : plain c = true) (href : ∀ r, refOf c = some r → r ∈ s.refs)
    (hheld : ∀ r ∈ s.held p, r ∈ s.refs) (hhold : ∀ r, Icache.holding c = some r → r ∈ s.held p)
    (hvalid : ∀ r ∈ s.held p, (s.inode r.2).valid = true)
    (hput : ∀ r, putOf c = some r → r ∈ s.held p → Icache.holding c = some r) : At s p c where
  absent _ _ _ _ e := by rw [e] at hc; cases hc
  empty _ _ _ _ e := by rw [e] at hc; cases hc
  ref := href
  held := hheld
  holding := hhold
  valid r hr _ := hvalid r hr
  entering r e := by rcases e with e | e <;> (rw [e] at hc; cases hc)
  validate _ e := by rw [e] at hc; cases hc
  locked _ e := by rw [e] at hc; cases hc
  put := hput

theorem At.go {d : Pc n} (h : At s p d) (hc : plain c = true)
    (href : refOf c = none ∨ refOf c = refOf d)
    (hhold : Icache.holding c = none ∨ Icache.holding c = Icache.holding d)
    (hfill : filling d = none) (hput : putOf c = none ∨ putOf c = putOf d ∧
      Icache.holding c = Icache.holding d) : At s p c := by
  refine At.of_plain hc (fun r hr => ?_) h.held (fun r hr => ?_)
    (fun r hr => h.valid r hr (by rw [hfill]; nofun)) fun r hr hm => ?_
  · rcases href with e | e <;> rw [e] at hr
    · cases hr
    · exact h.ref r hr
  · rcases hhold with e | e <;> rw [e] at hr
    · cases hr
    · exact h.holding r hr
  · rcases hput with e | ⟨e, e'⟩
    · rw [e] at hr
      cases hr
    · rw [e']
      exact h.put r (e ▸ hr) hm

theorem At.goto (h : At s q c) (p : Fin m) (d : Pc n) : At (s.goto p d) q c := by
  obtain ⟨a1, a2, a3, a4, a5, a6, a7, a8, a9, a10⟩ := h
  exact ⟨a1, a2, a3, a4, a5, a6, a7, a8, a9, a10⟩

theorem Cache.goto (h : Cache s) (p : Fin m) (c : Pc n) : Cache (s.goto p c) := by
  obtain ⟨h1, h2, h3, h4, h5, h6, h7, h8⟩ := h
  exact ⟨h1, h2, h3, h4, h5, h6, h7, h8⟩

theorem ref_pos (h : Cache s) (hr : r ∈ s.refs) : 0 < (s.inode r.2).ref := by
  rw [h.ref]
  exact List.countP_pos_iff.mpr ⟨r, hr, by simp⟩

namespace Inv

/-- The other processes, when `p` changes only inodes it has locked, free inodes on the disk, or
slots while it holds the lock. -/
theorem others (h : Inv s) (hheld : ∀ q, q ≠ p → t.held q = s.held q)
    (hrefs : ∀ r ∈ s.refs, r ∈ t.refs ∨ putOf (s.pc p) = some r)
    (hslot : ∀ q r, q ≠ p → r ∈ s.held q →
      Same (t.inode r.2) (s.inode r.2) ∧ t.left r.2 = s.left r.2)
    (hdisk : ∀ q r, q ≠ p → r ∈ s.held q → t.disk (s.inode r.2).key = s.disk (s.inode r.2).key ∨
      (s.disk (s.inode r.2).key).type = 0)
    (hscan : owns (s.pc p) = false → ∀ j, (t.inode j).key = (s.inode j).key ∧
      (t.inode j).ref = (s.inode j).ref)
    (hq : q ≠ p) : At t q (s.pc q) := by
  refine (h.procs q).frame (hheld q hq) (fun r hr hm => (hrefs r hm).resolve_right fun hput => ?_)
    (fun r => hslot q r hq) (fun r => hdisk q r hq) fun howns => hscan ?_
  · obtain ⟨h1, h2⟩ := h.apart p q hq r hput
    exact hr.elim h1 h2
  -- only one of the two has the lock
  · cases ho : owns (s.pc p) with
    | false => rfl
    | true =>
      have h1 := (h.lock q).mpr howns
      rw [(h.lock p).mpr ho] at h1
      exact absurd (Option.some.inj h1).symm hq

/-- A step of process `p` to `c`, from what it leaves of the cache. -/
theorem goto (h : Inv s) (hpc : t.pc = s.pc)
    (hlock : t.lock = some p ↔ owns c = true) (hlocks : ∀ q, q ≠ p → (t.lock = some q ↔ s.lock = some q))
    (hheld : ∀ q, q ≠ p → t.held q = s.held q)
    (hput : ∀ r, putOf c = some r → ∀ q, q ≠ p → refOf (s.pc q) ≠ some r ∧ r ∉ s.held q)
    (href : ∀ q, q ≠ p → ∀ r, putOf (s.pc q) = some r → refOf c ≠ some r ∧ r ∉ t.held p)
    (hcache : Cache t) (hp : At t p c) (hq : ∀ q, q ≠ p → At t q (s.pc q)) : Inv (t.goto p c) where
  lock q := by
    change t.lock = some q ↔ owns (update t.pc p c q) = true
    rw [hpc]
    by_cases e : q = p
    · rw [e, update_self]
      exact hlock
    · rw [update_of_ne e, hlocks q e]
      exact h.lock q
  cache := hcache.goto p c
  procs q := by
    refine At.goto ?_ p c
    change At t q (update t.pc p c q)
    rw [hpc]
    by_cases e : q = p
    · rw [e, update_self]
      exact hp
    · rw [update_of_ne e]
      exact hq q e
  apart q₁ q₂ hne r := by
    change putOf (update t.pc p c q₁) = some r →
      refOf (update t.pc p c q₂) ≠ some r ∧ r ∉ t.held q₂
    rw [hpc]
    by_cases e₁ : q₁ = p
    · have e₂ : q₂ ≠ p := fun e => hne (e.trans e₁.symm)
      rw [e₁, update_self, update_of_ne e₂, hheld q₂ e₂]
      exact fun hr => hput r hr q₂ e₂
    · rw [update_of_ne e₁]
      intro hr
      by_cases e₂ : q₂ = p
      · rw [e₂, update_self]
        exact href q₁ e₁ r hr
      · rw [update_of_ne e₂, hheld q₂ e₂]
        exact h.apart q₁ q₂ hne r hr

/-- A process that goes on with a call stays apart from the others. -/
theorem apart_go (h : Inv s) (hput : putOf c = none ∨ putOf c = putOf (s.pc p)) (r : Ref n)
    (hr : putOf c = some r) (q : Fin m) (hq : q ≠ p) : refOf (s.pc q) ≠ some r ∧ r ∉ s.held q := by
  refine h.apart p q hq r ?_
  rcases hput with e | e
  · rw [e] at hr
    cases hr
  · rw [← e, hr]

theorem apart_to (h : Inv s) {H : List (Ref n)} (href : refOf c = none ∨ refOf c = refOf (s.pc p))
    (hheld : ∀ r ∈ H, r ∈ s.held p ∨ refOf (s.pc p) = some r) (q : Fin m) (hq : q ≠ p) (r : Ref n)
    (hr : putOf (s.pc q) = some r) : refOf c ≠ some r ∧ r ∉ H := by
  obtain ⟨h1, h2⟩ := h.apart q p hq.symm r hr
  refine ⟨fun hc => ?_, fun hm => (hheld r hm).elim h2 h1⟩
  rcases href with e | e
  · rw [e] at hc
    cases hc
  · exact h1 (e ▸ hc)

theorem move (h : Inv s) {l : Option (Fin m)} (hp : At s p c)
    (hlock : l = some p ↔ owns c = true) (hlocks : ∀ q, q ≠ p → (l = some q ↔ s.lock = some q))
    (hput : ∀ r, putOf c = some r → ∀ q, q ≠ p → refOf (s.pc q) ≠ some r ∧ r ∉ s.held q)
    (href : ∀ q, q ≠ p → ∀ r, putOf (s.pc q) = some r → refOf c ≠ some r ∧ r ∉ s.held p) :
    Inv ({ s with lock := l }.goto p c) := by
  obtain ⟨h1, h2, h3, h4, h5, h6, h7, h8⟩ := h.cache
  obtain ⟨a1, a2, a3, a4, a5, a6, a7, a8, a9, a10⟩ := hp
  exact h.goto (t := { s with lock := l }) rfl hlock hlocks (fun _ _ => rfl) hput href
    ⟨h1, h2, h3, h4, h5, h6, h7, h8⟩ ⟨a1, a2, a3, a4, a5, a6, a7, a8, a9, a10⟩
    fun q hq => h.others (p := p) (fun _ _ => rfl) (fun _ hr => .inl hr)
      (fun _ _ _ _ => ⟨⟨rfl, rfl, rfl⟩, rfl⟩) (fun _ _ _ _ => .inl rfl) (fun _ _ => ⟨rfl, rfl⟩) hq

theorem keep (h : Inv s) (hp : At s p c) (ho : owns (s.pc p) = owns c)
    (hput : putOf c = none ∨ putOf c = putOf (s.pc p))
    (href : refOf c = none ∨ refOf c = refOf (s.pc p)) : Inv (s.goto p c) :=
  h.move (l := s.lock) hp (by rw [h.lock p, ho]) (fun _ _ => Iff.rfl) (h.apart_go hput)
    (h.apart_to href fun _ hr => .inl hr)

theorem acquire (h : Inv s) (hfree : s.lock = none) (hp : At s p c) (ho : owns c = true)
    (hput : putOf c = none ∨ putOf c = putOf (s.pc p))
    (href : refOf c = none ∨ refOf c = refOf (s.pc p)) :
    Inv ({ s with lock := some p }.goto p c) :=
  h.move hp (iff_of_true rfl ho) (fun q hq =>
    iff_of_false (fun e => hq (Option.some.inj e).symm) (by rw [hfree]; nofun)) (h.apart_go hput)
    (h.apart_to href fun _ hr => .inl hr)

theorem release (h : Inv s) (hown : owns (s.pc p) = true) (hp : At s p c) (ho : owns c = false)
    (hput : putOf c = none ∨ putOf c = putOf (s.pc p))
    (href : refOf c = none ∨ refOf c = refOf (s.pc p)) :
    Inv ({ s with lock := none }.goto p c) :=
  h.move hp (iff_of_false nofun (by rw [ho]; nofun)) (fun q hq =>
    iff_of_false nofun (by
      rw [(h.lock p).mpr hown]
      exact fun e => hq (Option.some.inj e).symm)) (h.apart_go hput)
    (h.apart_to href fun _ hr => .inl hr)

theorem slot_ne (h : Inv s) {r r' : Ref n} (hr : r ∈ s.held p) (hq : q ≠ p) (hr' : r' ∈ s.held q) :
    r'.2 ≠ r.2 := fun e => hq (h.cache.one q p r' r hr' hr e).1

theorem key_ne (h : Inv s) {r r' : Ref n} (hr : r ∈ s.held p) (hq : q ≠ p) (hr' : r' ∈ s.held q) :
    (s.inode r'.2).key ≠ (s.inode r.2).key := fun e =>
  h.slot_ne hr hq hr' (h.cache.unique _ _ (ref_pos h.cache ((h.procs q).held r' hr'))
    (ref_pos h.cache ((h.procs p).held r hr)) e)

theorem own (h : Inv s) {x : Inode} (hr : r ∈ s.held p) (hkey : x.key = (s.inode r.2).key)
    (href : x.ref = (s.inode r.2).ref) (hbusy : x.busy = (s.inode r.2).busy)
    (hp : At (s.setInode r.2 x) p c) (ho : owns (s.pc p) = owns c)
    (hput : putOf c = none ∨ putOf c = putOf (s.pc p))
    (hrefs : refOf c = none ∨ refOf c = refOf (s.pc p)) : Inv ((s.setInode r.2 x).goto p c) := by
  have hself : (s.setInode r.2 x).inode r.2 = x := update_self ..
  have hne : ∀ {j}, j ≠ r.2 → (s.setInode r.2 x).inode j = s.inode j := fun e =>
    update_of_ne e ..
  have hsame : ∀ j, ((s.setInode r.2 x).inode j).key = (s.inode j).key ∧
      ((s.setInode r.2 x).inode j).ref = (s.inode j).ref ∧
      ((s.setInode r.2 x).inode j).busy = (s.inode j).busy := fun j => by
    by_cases e : j = r.2
    · rw [e, hself]
      exact ⟨hkey, href, hbusy⟩
    · rw [hne e]
      exact ⟨rfl, rfl, rfl⟩
  refine h.goto rfl ((h.lock p).trans (by rw [ho])) (fun _ _ => Iff.rfl) (fun _ _ => rfl)
    (h.apart_go hput) (h.apart_to hrefs fun _ hr => .inl hr) ?_ hp fun q hq =>
      h.others (p := p) (fun _ _ => rfl) (fun _ hr => .inl hr) (fun q r' hq hr' => ?_)
        (fun _ _ _ _ => .inl rfl) (fun _ j => ⟨(hsame j).1, (hsame j).2.1⟩) hq
  · refine ⟨fun i => ?_, h.cache.ids, h.cache.old, fun i j => ?_, fun i => ?_, h.cache.one,
      h.cache.nodup, fun i hb => ?_⟩
    · rw [(hsame i).2.1]
      exact h.cache.ref i
    · rw [(hsame i).1, (hsame i).2.1, (hsame j).1, (hsame j).2.1]
      exact h.cache.unique i j
    · rw [(hsame i).2.2]
      exact h.cache.busy i
    · rw [(hsame i).2.2] at hb
      have e : i ≠ r.2 := by
        intro e
        have := (h.cache.busy i).mpr ⟨p, r, hr, e.symm⟩
        rw [hb] at this
        cases this
      rw [hne e]
      exact h.cache.left i hb
  · rw [hne (h.slot_ne hr hq hr')]
    exact ⟨⟨rfl, rfl, rfl⟩, rfl⟩

/-- A step that changes an inode on the disk: one that the process has locked, or a free one. -/
theorem setDisk (h : Inv s) {x : Nat × Nat} {d : Dinode}
    (hx : (∃ r ∈ s.held p, (s.inode r.2).key = x) ∨ (s.disk x).type = 0)
    (hp : At { s with disk := update s.disk x d } p c) (ho : owns (s.pc p) = owns c)
    (hput : putOf c = none ∨ putOf c = putOf (s.pc p))
    (hrefs : refOf c = none ∨ refOf c = refOf (s.pc p)) :
    Inv ({ s with disk := update s.disk x d }.goto p c) := by
  obtain ⟨h1, h2, h3, h4, h5, h6, h7, h8⟩ := h.cache
  refine h.goto (t := { s with disk := update s.disk x d }) rfl
    ((h.lock p).trans (by rw [ho])) (fun _ _ => Iff.rfl) (fun _ _ => rfl)
    (h.apart_go hput) (h.apart_to hrefs fun _ hr => .inl hr) ⟨h1, h2, h3, h4, h5, h6, h7, h8⟩ hp
    fun q hq => h.others (p := p) (fun _ _ => rfl) (fun _ hr => .inl hr)
      (fun _ _ _ _ => ⟨⟨rfl, rfl, rfl⟩, rfl⟩) (fun q r' hq hr' => ?_) (fun _ _ => ⟨rfl, rfl⟩) hq
  change update s.disk x d (s.inode r'.2).key = _ ∨ _
  by_cases e : (s.inode r'.2).key = x
  · rcases hx with ⟨r, hr, hk⟩ | hfree
    · exact absurd (e.trans hk.symm) (h.key_ne hr hq hr')
    · exact .inr (e ▸ hfree)
  · exact .inl (update_of_ne e ..)

theorem setBusy (h : Inv s) (hown : owns (s.pc p) = true) (ho : owns c = true)
    (hfree : (s.inode r.2).busy = false) (hr : refOf (s.pc p) = some r)
    (hp : At (s.setBusy p r) p c) (hput : putOf c = putOf (s.pc p)) (hrefs : refOf c = refOf (s.pc p)) :
    Inv ((s.setBusy p r).goto p c) := by
  have hnot : ∀ {q r'}, r' ∈ s.held q → r'.2 ≠ r.2 := fun {q r'} hm e => by
    have := (h.cache.busy r.2).mpr ⟨q, r', hm, e⟩
    rw [hfree] at this
    cases this
  have hself : (s.setBusy p r).inode r.2 = { s.inode r.2 with busy := true } :=
    update_self ..
  have hne : ∀ {j}, j ≠ r.2 → (s.setBusy p r).inode j = s.inode j := fun e => update_of_ne e ..
  have hheld : (s.setBusy p r).held p = r :: s.held p := update_self ..
  have hheldNe : ∀ {q}, q ≠ p → (s.setBusy p r).held q = s.held q := fun e =>
    update_of_ne e ..
  have hmem : ∀ {q r'}, r' ∈ (s.setBusy p r).held q ↔ q = p ∧ r' = r ∨ r' ∈ s.held q := by
    intro q r'
    by_cases e : q = p
    · rw [e, hheld, List.mem_cons]
      exact ⟨fun h => h.imp (fun e => ⟨rfl, e⟩) id, fun h => h.imp And.right id⟩
    · rw [hheldNe e]
      exact ⟨.inr, fun h => h.resolve_left fun ⟨e', _⟩ => e e'⟩
  have hsame : ∀ j, Same ((s.setBusy p r).inode j) (s.inode j) ∧
      ((s.setBusy p r).inode j).ref = (s.inode j).ref := fun j => by
    by_cases e : j = r.2
    · rw [e, hself]
      exact ⟨⟨rfl, rfl, rfl⟩, rfl⟩
    · rw [hne e]
      exact ⟨⟨rfl, rfl, rfl⟩, rfl⟩
  refine h.goto rfl (iff_of_true ((h.lock p).mpr hown) ho) (fun _ _ => Iff.rfl) (fun _ hq => hheldNe hq)
    (h.apart_go (.inr hput)) (h.apart_to (.inr hrefs) fun r' hr' => ?_) ?_ hp fun q hq =>
      h.others (p := p) (fun _ hq => hheldNe hq) (fun _ hr => .inl hr)
        (fun _ r' _ _ => ⟨(hsame r'.2).1, rfl⟩) (fun _ _ _ _ => .inl rfl)
        (fun _ j => ⟨(hsame j).1.1, (hsame j).2⟩) hq
  · rw [hheld] at hr'
    exact (List.mem_cons.mp hr').elim (fun e => .inr (e ▸ hr)) .inl
  · refine ⟨fun i => ?_, h.cache.ids, h.cache.old, fun i j => ?_, fun i => ?_,
      fun q q' r₁ r₂ h1 h2 e => ?_, fun q => ?_, fun i hb => ?_⟩
    · rw [(hsame i).2]
      exact h.cache.ref i
    · rw [(hsame i).1.1, (hsame i).2, (hsame j).1.1, (hsame j).2]
      exact h.cache.unique i j
    · by_cases e : i = r.2
      · rw [e, hself]
        exact iff_of_true rfl ⟨p, r, hmem.mpr (.inl ⟨rfl, rfl⟩), rfl⟩
      · rw [hne e, h.cache.busy i]
        refine exists_congr fun q => exists_congr fun r' => and_congr_left fun hi => ?_
        rw [hmem]
        exact ⟨.inr, fun hm => hm.resolve_left fun ⟨_, e'⟩ => e (by rw [← hi, e'])⟩
    · rcases hmem.mp h1 with ⟨e1, e1'⟩ | h1' <;> rcases hmem.mp h2 with ⟨e2, e2'⟩ | h2'
      · exact ⟨e1.trans e2.symm, e1'.trans e2'.symm⟩
      · exact absurd (e.symm.trans (e1' ▸ rfl)) (hnot h2')
      · exact absurd (e.trans (e2' ▸ rfl)) (hnot h1')
      · exact h.cache.one q q' r₁ r₂ h1' h2' e
    · by_cases e : q = p
      · rw [e, hheld]
        exact List.nodup_cons.mpr ⟨fun hm => hnot hm rfl, h.cache.nodup p⟩
      · rw [hheldNe e]
        exact h.cache.nodup q
    · have e : i ≠ r.2 := by
        intro e
        rw [e, hself] at hb
        cases hb
      rw [hne e] at hb ⊢
      exact h.cache.left i hb

theorem setFree (h : Inv s) {v : Bool} (hown : owns (s.pc p) = true) (ho : owns c = true)
    (hr : r ∈ s.held p) (hvalid : (s.inode r.2).valid = true) (hp : At (s.setFree p r v) p c)
    (hput : putOf c = none ∨ putOf c = putOf (s.pc p))
    (hrefs : refOf c = none ∨ refOf c = refOf (s.pc p)) : Inv ((s.setFree p r v).goto p c) := by
  have hself : (s.setFree p r v).inode r.2 =
      { s.inode r.2 with busy := false, valid := v && (s.inode r.2).valid } := update_self ..
  have hne : ∀ {j}, j ≠ r.2 → (s.setFree p r v).inode j = s.inode j := fun e =>
    update_of_ne e ..
  have hheld : (s.setFree p r v).held p = (s.held p).erase r := update_self ..
  have hheldNe : ∀ {q}, q ≠ p → (s.setFree p r v).held q = s.held q := fun e =>
    update_of_ne e ..
  have hmem : ∀ {q r'}, r' ∈ (s.setFree p r v).held q ↔ r' ∈ s.held q ∧ r'.2 ≠ r.2 := by
    intro q r'
    by_cases e : q = p
    · rw [e, hheld, (h.cache.nodup p).mem_erase_iff, and_comm]
      refine and_congr_right fun hm => ⟨fun hne' e' => hne' (h.cache.one p p r' r hm hr e').2, ?_⟩
      exact fun hne' e' => hne' (e' ▸ rfl)
    · rw [hheldNe e]
      exact ⟨fun hm => ⟨hm, h.slot_ne hr e hm⟩, And.left⟩
  have hsame : ∀ j, ((s.setFree p r v).inode j).key = (s.inode j).key ∧
      ((s.setFree p r v).inode j).ref = (s.inode j).ref := fun j => by
    by_cases e : j = r.2
    · rw [e, hself]
      exact ⟨rfl, rfl⟩
    · rw [hne e]
      exact ⟨rfl, rfl⟩
  refine h.goto rfl (iff_of_true ((h.lock p).mpr hown) ho) (fun _ _ => Iff.rfl) (fun _ hq => hheldNe hq)
    (h.apart_go hput) (h.apart_to hrefs fun r' hr' => .inl (hmem.mp hr').1) ?_ hp fun q hq =>
      h.others (p := p) (fun _ hq => hheldNe hq) (fun _ hr => .inl hr)
        (fun q r' hq hr' => ?_) (fun _ _ _ _ => .inl rfl) (fun _ j => hsame j) hq
  · refine ⟨fun i => ?_, h.cache.ids, h.cache.old, fun i j => ?_, fun i => ?_,
      fun q q' r₁ r₂ h1 h2 e => h.cache.one q q' r₁ r₂ (hmem.mp h1).1 (hmem.mp h2).1 e,
      fun q => ?_, fun i hb => ?_⟩
    · rw [(hsame i).2]
      exact h.cache.ref i
    · rw [(hsame i).1, (hsame i).2, (hsame j).1, (hsame j).2]
      exact h.cache.unique i j
    · by_cases e : i = r.2
      · rw [e, hself]
        exact iff_of_false nofun fun ⟨q, r', hm, e'⟩ => (hmem.mp hm).2 e'
      · rw [hne e, h.cache.busy i]
        refine exists_congr fun q => exists_congr fun r' => and_congr_left fun hi => ?_
        rw [hmem]
        exact ⟨fun hm => ⟨hm, fun e' => e (hi.symm.trans e')⟩, And.left⟩
    · by_cases e : q = p
      · rw [e, hheld]
        exact (h.cache.nodup p).erase r
      · rw [hheldNe e]
        exact h.cache.nodup q
    · by_cases e : i = r.2
      · rw [e, hself]
        refine (update_self ..).trans ?_
        cases v with
        | false => rfl
        | true => rw [stored, hvalid]; rfl
      · rw [hne e] at hb ⊢
        exact (update_of_ne e ..).trans (h.cache.left i hb)
  · have e := h.slot_ne hr hq hr'
    rw [hne e]
    exact ⟨⟨rfl, rfl, rfl⟩, update_of_ne e ..⟩

/-- A process that holds the lock gets a reference to slot `i`: it is counted, or the slot, which
nobody uses, becomes that of another inode. -/
theorem addRef (h : Inv s) {x : Inode} {l : Option Dinode} (hown : owns (s.pc p) = true)
    (hfill : filling (s.pc p) = none) (hinode : t.inode = update s.inode i x)
    (hleft : t.left = update s.left i l) (hrefs : t.refs = (s.fresh, i) :: s.refs)
    (hfresh : t.fresh = s.fresh + 1) (hheld : t.held = s.held) (hdisk : t.disk = s.disk)
    (hlock : t.lock = s.lock) (hpc : t.pc = s.pc) (href : x.ref = (s.inode i).ref + 1)
    (hbusy : x.busy = (s.inode i).busy)
    (huniq : ∀ j, j ≠ i → 0 < (s.inode j).ref → (s.inode j).key ≠ x.key)
    (hslot : Same x (s.inode i) ∧ l = s.left i ∨ (s.inode i).ref = 0)
    (hl : x.busy = false → l = stored x) : Inv (t.goto p .leave) := by
  have hself : t.inode i = x := by rw [hinode, update_self]
  have hne : ∀ {j}, j ≠ i → t.inode j = s.inode j := fun e => by
    rw [hinode, update_of_ne e]
  have hlself : t.left i = l := by rw [hleft, update_self]
  have hlne : ∀ {j}, j ≠ i → t.left j = s.left j := fun e => by rw [hleft, update_of_ne e]
  have hbusy' : ∀ j, (t.inode j).busy = (s.inode j).busy := fun j => by
    by_cases e : j = i
    · rw [e, hself, hbusy]
    · rw [hne e]
  -- a slot that is locked has a reference, so that it is not recycled
  have hsame : ∀ q r, r ∈ s.held q →
      Same (t.inode r.2) (s.inode r.2) ∧ t.left r.2 = s.left r.2 := fun q r hr => by
    by_cases e : r.2 = i
    · have hpos := ref_pos h.cache ((h.procs q).held r hr)
      rw [e] at hpos ⊢
      obtain ⟨h1, h2⟩ := hslot.resolve_right (Nat.ne_of_gt hpos)
      rw [hself, hlself]
      exact ⟨h1, h2⟩
    · rw [hne e, hlne e]
      exact ⟨⟨rfl, rfl, rfl⟩, rfl⟩
  have hat := h.procs p
  refine h.goto hpc (iff_of_true (hlock.trans ((h.lock p).mpr hown)) rfl)
    (fun _ _ => by rw [hlock]) (fun _ _ => by rw [hheld]) nofun
    (h.apart_to (.inl rfl) fun _ hr => .inl (hheld ▸ hr)) ?_ ?_ fun q hq =>
      h.others (p := p) (fun _ _ => by rw [hheld])
        (fun r hr => .inl (hrefs ▸ List.mem_cons_of_mem _ hr)) (fun q r' _ => hsame q r')
        (fun _ _ _ _ => .inl (by rw [hdisk])) (by rw [hown]; nofun) hq
  · refine ⟨fun j => ?_, ?_, fun r hr => ?_, fun j k => ?_, fun j => ?_, ?_, ?_, fun j => ?_⟩
    · rw [hrefs, List.countP_cons]
      by_cases e : j = i
      · rw [e, hself, href, h.cache.ref i]
        simp
      · rw [hne e, h.cache.ref j]
        simp [Ne.symm e]
    · rw [hrefs]
      refine List.nodup_cons.mpr ⟨fun hm => ?_, h.cache.ids⟩
      obtain ⟨r, hr, e⟩ := List.mem_map.mp hm
      exact absurd e (Nat.ne_of_lt (h.cache.old r hr))
    · rw [hfresh]
      rw [hrefs] at hr
      rcases List.mem_cons.mp hr with rfl | hr
      · exact Nat.lt_succ_self _
      · exact Nat.lt_succ_of_lt (h.cache.old r hr)
    · by_cases e₁ : j = i <;> by_cases e₂ : k = i
      · exact fun _ _ _ => e₁.trans e₂.symm
      · rw [e₁, hself, hne e₂]
        exact fun _ hk e => absurd e.symm (huniq k e₂ hk)
      · rw [e₂, hself, hne e₁]
        exact fun hj _ e => absurd e (huniq j e₁ hj)
      · rw [hne e₁, hne e₂]
        exact h.cache.unique j k
    · rw [hbusy', hheld]
      exact h.cache.busy j
    · rw [hheld]
      exact h.cache.one
    · rw [hheld]
      exact h.cache.nodup
    · by_cases e : j = i
      · rw [e, hself, hlself]
        exact hl
      · rw [hne e, hlne e]
        exact h.cache.left j
  · refine ⟨nofun, nofun, nofun, fun r hr => ?_, nofun, fun r hr _ => ?_, by nofun, nofun, nofun, nofun⟩
    · rw [hrefs]
      exact List.mem_cons_of_mem _ (hat.held r (hheld ▸ hr))
    · rw [hheld] at hr
      rw [(hsame p r hr).1.2.1]
      exact hat.valid r hr (by rw [hfill]; nofun)

theorem count (h : Inv s) (hown : owns (s.pc p) = true) (hfill : filling (s.pc p) = none)
    (hpos : 0 < (s.inode i).ref) :
    Inv ((s.addRef i { s.inode i with ref := (s.inode i).ref + 1 }).goto p .leave) :=
  h.addRef hown hfill rfl (update_eq_self i s.left).symm rfl rfl rfl rfl rfl rfl rfl rfl
    (fun j hj hp hk => hj (h.cache.unique j i hp hpos hk)) (.inl ⟨⟨rfl, rfl, rfl⟩, rfl⟩)
    (h.cache.left i)

theorem recycle (h : Inv s) {dev inum k : Nat} {e : Fin n} (hp : s.pc p = .scan dev inum k (some e))
    (hk : ¬ k < n) :
    Inv ({ s.addRef e { s.inode e with
        dev := dev, inum := inum, ref := 1, busy := false, valid := false } with
      left := update s.left e none }.goto p .leave) := by
  have hat := h.procs p
  rw [hp] at hat
  have hzero : (s.inode e).ref = 0 := hat.empty _ _ _ _ rfl
  have hfree : (s.inode e).busy = false := by
    by_contra hb
    obtain ⟨q, r, hr, hi⟩ := (h.cache.busy e).mp ((Bool.not_eq_false _).mp hb)
    have := ref_pos h.cache ((h.procs q).held r hr)
    rw [hi] at this
    omega
  exact h.addRef (l := none) (by rw [hp]; rfl) (by rw [hp]; rfl) rfl rfl rfl rfl rfl rfl rfl rfl
    (by rw [hzero]) hfree.symm (fun j _ => hat.absent _ _ _ _ rfl j (by omega)) (.inr hzero)
    fun _ => rfl

theorem drop (h : Inv s) (hp : s.pc p = .putDrop r) :
    Inv ({ s.setInode r.2 { s.inode r.2 with ref := (s.inode r.2).ref - 1 } with
      refs := s.refs.erase r }.goto p .leave) := by
  have hat := h.procs p
  rw [hp] at hat
  have hown : owns (s.pc p) = true := by rw [hp]; rfl
  have hr : r ∈ s.refs := hat.ref r rfl
  have hnodup : s.refs.Nodup := h.cache.ids.of_map _
  have hheld : r ∉ s.held p := fun hm => nomatch hat.put r rfl hm
  generalize ht : ({ s.setInode r.2 { s.inode r.2 with ref := (s.inode r.2).ref - 1 } with
      refs := s.refs.erase r } : State m n) = t
  have hrefs : t.refs = s.refs.erase r := by rw [← ht]
  have hmem : ∀ {r'}, r' ∈ s.refs → r' ≠ r → r' ∈ t.refs := fun hm hne => by
    rw [hrefs]
    exact (hnodup.mem_erase_iff).mpr ⟨hne, hm⟩
  have hself : t.inode r.2 = { s.inode r.2 with ref := (s.inode r.2).ref - 1 } := by
    rw [← ht]
    exact update_self ..
  have hne : ∀ {j}, j ≠ r.2 → t.inode j = s.inode j := fun e => by
    rw [← ht]
    exact update_of_ne e ..
  have hsame : ∀ j, Same (t.inode j) (s.inode j) ∧ (t.inode j).busy = (s.inode j).busy ∧
      (0 < (t.inode j).ref → 0 < (s.inode j).ref) := fun j => by
    by_cases e : j = r.2
    · rw [e, hself]
      exact ⟨⟨rfl, rfl, rfl⟩, rfl, fun hpos => by
        change 0 < (s.inode r.2).ref - 1 at hpos
        omega⟩
    · rw [hne e]
      exact ⟨⟨rfl, rfl, rfl⟩, rfl, id⟩
  have hheld' : t.held = s.held := by rw [← ht]; rfl
  have hleft : t.left = s.left := by rw [← ht]; rfl
  have hdisk : t.disk = s.disk := by rw [← ht]; rfl
  have hlock : t.lock = s.lock := by rw [← ht]; rfl
  have hpc : t.pc = s.pc := by rw [← ht]; rfl
  have hfresh : t.fresh = s.fresh := by rw [← ht]; rfl
  refine h.goto hpc (iff_of_true (hlock.trans ((h.lock p).mpr hown)) rfl)
    (fun _ _ => by rw [hlock]) (fun _ _ => by rw [hheld']) nofun
    (h.apart_to (.inl rfl) fun _ hr => .inl (hheld' ▸ hr)) ?_ ?_ fun q hq =>
      h.others (p := p) (fun _ _ => by rw [hheld']) (fun r' hr' => ?_)
        (fun _ r' _ _ => ⟨(hsame r'.2).1, by rw [hleft]⟩) (fun _ _ _ _ => .inl (by rw [hdisk]))
        (by rw [hown]; nofun) hq
  · refine ⟨fun j => ?_, ?_, fun r' hr' => ?_, fun j k hj hk => ?_, fun j => ?_, ?_, ?_, fun j => ?_⟩
    · rw [hrefs, List.countP_erase]
      by_cases e : j = r.2
      · rw [e, hself, ← h.cache.ref]
        simp [hr]
      · rw [hne e, h.cache.ref j]
        simp [Ne.symm e]
    · rw [hrefs]
      exact h.cache.ids.sublist (List.erase_sublist.map _)
    · rw [hfresh]
      exact h.cache.old r' (List.mem_of_mem_erase (hrefs ▸ hr'))
    · rw [(hsame j).1.1, (hsame k).1.1]
      exact h.cache.unique j k ((hsame j).2.2 hj) ((hsame k).2.2 hk)
    · rw [(hsame j).2.1, hheld']
      exact h.cache.busy j
    · rw [hheld']
      exact h.cache.one
    · rw [hheld']
      exact h.cache.nodup
    · rw [(hsame j).2.1, hleft, stored, (hsame j).1.2.1, (hsame j).1.2.2]
      exact h.cache.left j
  · refine ⟨nofun, nofun, nofun, fun r' hr' => ?_, nofun, fun r' hr' _ => ?_, by nofun, nofun, nofun,
      nofun⟩
    · rw [hheld'] at hr'
      exact hmem (hat.held r' hr') fun e => hheld (e ▸ hr')
    · rw [(hsame r'.2).1.2.1]
      exact hat.valid r' (hheld' ▸ hr') nofun
  · by_cases e : r' = r
    · exact .inr (by rw [e, hp]; rfl)
    · exact .inl (hmem hr' e)

end Inv

/-! ### The instructions -/

theorem wakeup_pc (s : State m n) (i : Fin n) (q : Fin m) : (s.wakeup i).pc q = s.pc q ∨
    ∃ r, s.pc q = .asleep r ∧ (s.wakeup i).pc q = .lockEnter r := by
  cases hq : s.pc q with
  | asleep r =>
    simp only [State.wakeup, hq]
    split
    · exact .inr ⟨r, rfl, rfl⟩
    · exact .inl rfl
  | _ => exact .inl (by simp only [State.wakeup, hq])

namespace Inv

variable {ninodes : Nat}

theorem woken (h : Inv s) (i : Fin n) : Inv (s.wakeup i) := by
  obtain ⟨h1, h2, h3, h4, h5, h6, h7, h8⟩ := h.cache
  have hput : ∀ q, putOf ((s.wakeup i).pc q) = putOf (s.pc q) := fun q => by
    rcases wakeup_pc s i q with e | ⟨r, e, e'⟩
    · rw [e]
    · rw [e, e']
      rfl
  have href : ∀ q, refOf ((s.wakeup i).pc q) = refOf (s.pc q) := fun q => by
    rcases wakeup_pc s i q with e | ⟨r, e, e'⟩
    · rw [e]
    · rw [e, e']
      rfl
  refine ⟨fun q => (h.lock q).trans ?_, ⟨h1, h2, h3, h4, h5, h6, h7, h8⟩, fun q => ?_,
    fun q₁ q₂ hne r hr => ?_⟩
  · rcases wakeup_pc s i q with e | ⟨r, e, e'⟩
    · rw [e]
    · rw [e, e']
      exact Iff.rfl
  · have hat : At s q ((s.wakeup i).pc q) := by
      rcases wakeup_pc s i q with e | ⟨r, e, e'⟩
      · rw [e]
        exact h.procs q
      · have hat := h.procs q
        rw [e] at hat
        rw [e']
        exact hat.go rfl (.inr rfl) (.inl rfl) rfl (.inl rfl)
    obtain ⟨a1, a2, a3, a4, a5, a6, a7, a8, a9, a10⟩ := hat
    exact ⟨a1, a2, a3, a4, a5, a6, a7, a8, a9, a10⟩
  · rw [href q₂]
    exact h.apart q₁ q₂ hne r (hput q₁ ▸ hr)

theorem wakeup (h : Inv s) (hw : ∀ r, s.pc p ≠ .asleep r) (hc : plain c = true) (ho : owns (s.pc p) = owns c)
    (href : refOf c = none ∨ refOf c = refOf (s.pc p)) (hhold : holding c = none)
    (hfill : filling (s.pc p) = none) (hhold' : holding (s.pc p) = none)
    (hput : putOf c = none ∨ putOf c = putOf (s.pc p)) : Inv ((s.wakeup i).goto p c) := by
  have hpc : (s.wakeup i).pc p = s.pc p :=
    (wakeup_pc s i p).resolve_right fun ⟨r, e, _⟩ => hw r e
  have hwoken := h.woken i
  refine hwoken.keep ((hwoken.procs p).go hc (by rw [hpc]; exact href) (.inl hhold)
    (by rw [hpc]; exact hfill) (hput.imp id fun e => ?_)) (by rw [hpc]; exact ho)
    (by rw [hpc]; exact hput) (by rw [hpc]; exact href)
  rw [hpc, hhold, hhold']
  exact ⟨e, rfl⟩

theorem at_own (hat : At s p (s.pc p)) {x : Inode} (hvalid : x.valid = true)
    (hfill : filling (s.pc p) = none ∨ filling (s.pc p) = some r) : ∀ r' ∈ (s.setInode r.2 x).held p,
      ((s.setInode r.2 x).inode r'.2).valid = true := by
  intro r' hr'
  change (update s.inode r.2 x r'.2).valid = true
  by_cases e : r'.2 = r.2
  · rw [e, update_self]
    exact hvalid
  · rw [update_of_ne e]
    refine hat.valid r' hr' fun hf => ?_
    rcases hfill with e' | e' <;> rw [e'] at hf
    · cases hf
    · exact e (Option.some.inj hf ▸ rfl)

theorem one_self (h : Inv s) (hr : r ∈ s.held p) (r' : Ref n) (hr' : r' ∈ s.held p)
    (e : r'.2 = r.2) : r' = r := (h.cache.one p p r' r hr' hr e).2

/-- `ilock` or `iput` sets `I_BUSY`: what the process needs then. -/
theorem at_setBusy (h : Inv s) (hr : refOf (s.pc p) = some r) (hfill : filling (s.pc p) = none)
    (hfree : (s.inode r.2).busy = false) :
    (∀ r' ∈ (s.setBusy p r).held p, r' ∈ s.refs) ∧ r ∈ (s.setBusy p r).held p ∧
      (∀ r' ∈ (s.setBusy p r).held p, r' ≠ r → ((s.setBusy p r).inode r'.2).valid = true) ∧
      Same ((s.setBusy p r).inode r.2) (s.inode r.2) ∧
      (s.setBusy p r).left r.2 = stored (s.inode r.2) := by
  have hat := h.procs p
  have hheld : (s.setBusy p r).held p = r :: s.held p := update_self ..
  have hself : (s.setBusy p r).inode r.2 = { s.inode r.2 with busy := true } :=
    update_self ..
  have hvalid : ∀ j, ((s.setBusy p r).inode j).valid = (s.inode j).valid := fun j => by
    by_cases e : j = r.2
    · rw [e, hself]
    · exact congrArg Inode.valid (update_of_ne e _ s.inode)
  rw [hheld]
  refine ⟨fun r' hr' => ?_, List.mem_cons_self, fun r' hr' hne => ?_, ?_, h.cache.left r.2 hfree⟩
  · rcases List.mem_cons.mp hr' with e | hm
    · exact e ▸ hat.ref r hr
    · exact hat.held r' hm
  · rw [hvalid]
    exact hat.valid r' ((List.mem_cons.mp hr').resolve_left hne) (by rw [hfill]; nofun)
  · rw [hself]
    exact ⟨rfl, rfl, rfl⟩

theorem lockTaken (h : Inv s) (hp : s.pc p = .lockTest r) (hfree : (s.inode r.2).busy = false) :
    Inv ((s.setBusy p r).goto p (.lockLeave r)) := by
  obtain ⟨h1, h2, h3, ⟨-, h4, h5⟩, h6⟩ :=
    h.at_setBusy (p := p) (r := r) (by rw [hp]; rfl) (by rw [hp]; rfl) hfree
  have hat := h.procs p
  rw [hp] at hat
  refine h.setBusy (by rw [hp]; rfl) rfl hfree (by rw [hp]; rfl) ⟨nofun, nofun, hat.ref, h1,
    fun r' hr' => ?_, fun r' hr' hf => h3 r' hr' fun e => hf (e ▸ rfl), fun r' hr' => ?_, nofun, nofun,
    nofun⟩ (by rw [hp]; rfl) (by rw [hp]; rfl)
  · cases hr'
    exact h2
  · rcases hr' with e | e <;> cases e
    rw [h6, stored, stored, h4, h5]

theorem putTaken (h : Inv s) (hp : s.pc p = .putTest r) (hfree : (s.inode r.2).busy = false)
    (hvalid : (s.inode r.2).valid = true) : Inv ((s.setBusy p r).goto p (.putLeave r)) := by
  obtain ⟨h1, h2, h3, ⟨-, h4, -⟩, -⟩ :=
    h.at_setBusy (p := p) (r := r) (by rw [hp]; rfl) (by rw [hp]; rfl) hfree
  have hat := h.procs p
  rw [hp] at hat
  refine h.setBusy (by rw [hp]; rfl) rfl hfree (by rw [hp]; rfl) (At.of_plain rfl hat.ref h1
    (fun r' hr' => ?_) (fun r' hr' => ?_) fun r' hr' _ => hr') (by rw [hp]; rfl) (by rw [hp]; rfl)
  · cases hr'
    exact h2
  · by_cases e : r' = r
    · rw [e, h4, hvalid]
    · exact h3 r' hr' e

theorem at_setFree (h : Inv s) {v : Bool} (hr : r ∈ s.held p) (hfill : filling (s.pc p) = none) :
    (∀ r' ∈ (s.setFree p r v).held p, r' ∈ s.refs ∧ r' ≠ r) ∧
      ∀ r' ∈ (s.setFree p r v).held p, ((s.setFree p r v).inode r'.2).valid = true := by
  have hat := h.procs p
  have hheld : (s.setFree p r v).held p = (s.held p).erase r := update_self ..
  rw [hheld]
  have hmem : ∀ r' ∈ (s.held p).erase r, r' ∈ s.held p ∧ r' ≠ r := fun r' hr' =>
    ((h.cache.nodup p).mem_erase_iff.mp hr').symm
  refine ⟨fun r' hr' => ⟨hat.held r' (hmem r' hr').1, (hmem r' hr').2⟩, fun r' hr' => ?_⟩
  obtain ⟨h1, h2⟩ := hmem r' hr'
  have e : r'.2 ≠ r.2 := fun e => h2 (h.one_self hr r' h1 e)
  exact (congrArg Inode.valid (update_of_ne e _ s.inode)).trans
    (hat.valid r' h1 (by rw [hfill]; nofun))

theorem read (h : Inv s) (hp : s.pc p = .fill r) (hinvalid : (s.inode r.2).valid = false) :
    Inv ((s.setInode r.2 { s.inode r.2 with din := s.disk (s.inode r.2).key }).goto p
      (.validate r)) := by
  have hat := h.procs p
  rw [hp] at hat
  have hr : r ∈ s.held p := hat.holding r rfl
  have hleft := hat.entering r (.inr rfl)
  rw [stored, hinvalid] at hleft
  refine h.own hr rfl rfl rfl ⟨nofun, nofun, hat.ref, hat.held, hat.holding, fun r' hr' hf => ?_,
    by nofun, fun r' hr' => ?_, nofun, nofun⟩ (by rw [hp]; rfl) (.inl rfl) (by rw [hp]; exact .inr rfl)
  · have e : r'.2 ≠ r.2 := fun e => hf (h.one_self hr r' hr' e ▸ rfl)
    exact (congrArg Inode.valid (update_of_ne e _ s.inode)).trans (hat.valid r' hr' hf)
  · cases hr'
    have hself : (s.setInode r.2 { s.inode r.2 with din := s.disk (s.inode r.2).key }).inode r.2 =
        { s.inode r.2 with din := s.disk (s.inode r.2).key } := update_self ..
    rw [hself]
    exact ⟨hinvalid, hleft, .inl rfl⟩

theorem validated (h : Inv s) (hp : s.pc p = .validate r) (htype : (s.inode r.2).din.type ≠ 0) :
    Inv ((s.setInode r.2 { s.inode r.2 with valid := true }).goto p (.locked r)) := by
  have hat' := h.procs p
  have hat := hat'
  rw [hp] at hat
  have hr : r ∈ s.held p := hat.holding r rfl
  obtain ⟨-, hleft, hdin⟩ := hat.validate r rfl
  refine h.own hr rfl rfl rfl ⟨nofun, nofun, hat.ref, hat.held, hat.holding, fun r' hr' _ =>
    at_own hat' rfl (by rw [hp]; exact .inr rfl) r' hr', by nofun, nofun,
    fun r' hr' => ?_, nofun⟩ (by rw [hp]; rfl) (.inl rfl) (by rw [hp]; exact .inr rfl)
  cases hr'
  have hself : (s.setInode r.2 { s.inode r.2 with valid := true }).inode r.2 =
      { s.inode r.2 with valid := true } := update_self ..
  rw [hself]
  exact .inr ⟨hleft, hdin.resolve_right htype, htype⟩

theorem change (h : Inv s) (d : Dinode) (hr : r ∈ s.held p) (hfill : filling (s.pc p) = none)
    (hc : plain c = true) (ho : owns (s.pc p) = owns c) (hput : putOf c = putOf (s.pc p))
    (href : refOf c = refOf (s.pc p)) (hhold : holding c = holding (s.pc p)) :
    Inv ((s.setInode r.2 { s.inode r.2 with din := d }).goto p c) := by
  have hat := h.procs p
  have hvalid : (s.inode r.2).valid = true := hat.valid r hr (by rw [hfill]; nofun)
  refine h.own hr rfl rfl rfl (At.of_plain hc (by rw [href]; exact hat.ref) hat.held
    (by rw [hhold]; exact hat.holding) (at_own hat hvalid (.inl hfill))
    (by rw [hput, hhold]; exact hat.put)) ho (.inr hput) (.inr href)

theorem update (h : Inv s) (hr : r ∈ s.held p) (hfill : filling (s.pc p) = none)
    (hc : plain c = true) (ho : owns (s.pc p) = owns c) (hput : putOf c = putOf (s.pc p))
    (href : refOf c = refOf (s.pc p)) (hhold : holding c = holding (s.pc p)) :
    Inv ((s.iupdate r.2).goto p c) := by
  have hat := h.procs p
  exact h.setDisk (.inl ⟨r, hr, rfl⟩) (At.of_plain hc (by rw [href]; exact hat.ref) hat.held
    (by rw [hhold]; exact hat.holding) (fun r' hr' => hat.valid r' hr' (by rw [hfill]; nofun))
    (by rw [hput, hhold]; exact hat.put)) ho (.inr hput) (.inr href)

theorem exec (h : Inv s) (he : Icache.exec ninodes s p = .next t) : Inv t := by
  have hat := h.procs p
  rw [Icache.exec] at he
  split at he
  · cases he
  · next dev inum type hp =>
    rw [hp] at hat
    split at he
    · split at he
      · next hfree =>
        cases he
        exact h.setDisk (.inr hfree) (At.of_plain rfl nofun hat.held nofun
          (fun r hr => hat.valid r hr nofun) nofun) (by rw [hp]; rfl) (.inl rfl) (.inl rfl)
      · cases he
        exact h.keep (hat.go rfl (.inl rfl) (.inl rfl) rfl (.inl rfl)) (by rw [hp]; rfl)
          (.inl rfl) (.inl rfl)
    · cases he
  · next dev inum hp =>
    rw [hp] at hat
    split at he
    · next hfree =>
      cases he
      refine h.acquire hfree ⟨fun _ _ _ _ hc j hj => ?_, nofun, nofun, hat.held, nofun, hat.valid,
        by nofun, nofun, nofun, nofun⟩ rfl (.inl rfl) (.inl rfl)
      cases hc
      exact absurd hj (Nat.not_lt_zero _)
    · cases he
  · next dev inum k empty hp =>
    split at he
    · next hk =>
      split at he
      · next hhit =>
        cases he
        exact h.count (by rw [hp]; rfl) (by rw [hp]; rfl) hhit.1
      · next hmiss =>
        cases he
        rw [hp] at hat
        refine h.keep ⟨fun _ _ _ _ hc j hj hpos => ?_, fun _ _ _ e hc => ?_, nofun, hat.held, nofun,
          hat.valid, by nofun, nofun, nofun, nofun⟩ (by rw [hp]; rfl) (.inl rfl) (.inl rfl)
        · cases hc
          by_cases e : j.val < k
          · exact hat.absent _ _ _ _ rfl j e hpos
          · have e' : j = ⟨k, hk⟩ := Fin.ext (show j.val = k by omega)
            rw [e'] at hpos ⊢
            exact fun hkey => hmiss ⟨hpos, hkey⟩
        · simp only [Pc.scan.injEq] at hc
          obtain ⟨-, -, -, hc⟩ := hc
          split at hc
          · next hz =>
            cases hc
            exact hz.2
          · exact hat.empty _ _ _ e (by rw [hc])
    · next hk =>
      split at he
      · cases he
      · cases he
        exact h.recycle hp hk
  · next r hp =>
    rw [hp] at hat
    split at he
    · next hfree =>
      cases he
      exact h.acquire hfree (hat.go rfl (.inr rfl) (.inl rfl) rfl (.inl rfl)) rfl (.inl rfl)
        (by rw [hp]; exact .inr rfl)
    · cases he
  · next r hp =>
    rw [hp] at hat
    cases he
    exact h.count (by rw [hp]; rfl) (by rw [hp]; rfl) (ref_pos h.cache (hat.ref r rfl))
  · next r hp =>
    rw [hp] at hat
    split at he
    · cases he
    · cases he
      exact h.keep (hat.go rfl (.inr rfl) (.inl rfl) rfl (.inl rfl)) (by rw [hp]; rfl)
        (.inl rfl) (by rw [hp]; exact .inr rfl)
  · next r hp =>
    rw [hp] at hat
    split at he
    · next hfree =>
      cases he
      exact h.acquire hfree (hat.go rfl (.inr rfl) (.inl rfl) rfl (.inl rfl)) rfl (.inl rfl)
        (by rw [hp]; exact .inr rfl)
    · cases he
  · next r hp =>
    split at he
    · cases he
      rw [hp] at hat
      exact h.release (by rw [hp]; rfl) (hat.go rfl (.inr rfl) (.inl rfl) rfl (.inl rfl)) rfl
        (.inl rfl) (by rw [hp]; exact .inr rfl)
    · next hfree =>
      cases he
      exact h.lockTaken hp (Bool.eq_false_iff.mpr hfree)
  · cases he
  · next r hp =>
    rw [hp] at hat
    cases he
    exact h.release (by rw [hp]; rfl) ⟨nofun, nofun, hat.ref, hat.held, hat.holding, hat.valid,
      fun r' hr' => hat.entering r' (.inl (by rcases hr' with e | e <;> cases e; rfl)), nofun, nofun,
      nofun⟩ rfl (.inl rfl) (by rw [hp]; exact .inr rfl)
  · next r hp =>
    split at he
    · next hvalid =>
      cases he
      rw [hp] at hat
      have hleft := hat.entering r (.inr rfl)
      rw [stored, if_pos hvalid] at hleft
      refine h.keep ⟨nofun, nofun, hat.ref, hat.held, hat.holding, fun r' hr' _ => ?_, by nofun, nofun,
        fun r' hr' => ?_, nofun⟩ (by rw [hp]; rfl) (.inl rfl) (by rw [hp]; exact .inr rfl)
      · by_cases e : r' = r
        · rw [e]
          exact hvalid
        · exact hat.valid r' hr' fun hf => e (Option.some.inj hf).symm
      · cases hr'
        exact .inl hleft
    · next hinvalid =>
      cases he
      exact h.read hp (Bool.eq_false_iff.mpr hinvalid)
  · next r hp =>
    split at he
    · cases he
    · next htype =>
      cases he
      exact h.validated hp htype
  · next r hp =>
    rw [hp] at hat
    cases he
    exact h.keep (hat.go rfl (.inl rfl) (.inl rfl) rfl (.inl rfl)) (by rw [hp]; rfl)
      (.inl rfl) (.inl rfl)
  · next r hp =>
    rw [hp] at hat
    split at he
    · cases he
    · split at he
      · next hfree =>
        cases he
        exact h.acquire hfree (hat.go rfl (.inr rfl) (.inr rfl) rfl (.inl rfl)) rfl (.inl rfl)
          (by rw [hp]; exact .inr rfl)
      · cases he
  · next r hp =>
    cases he
    have hr : r ∈ s.held p := hat.holding r (by rw [hp]; rfl)
    obtain ⟨h1, h2⟩ := h.at_setFree (v := true) hr (by rw [hp]; rfl)
    exact h.setFree (by rw [hp]; rfl) rfl hr (hat.valid r hr (by rw [hp]; nofun))
      (At.of_plain rfl nofun (fun r' hr' => (h1 r' hr').1) nofun h2 nofun) (.inl rfl) (.inl rfl)
  · next r hp =>
    cases he
    exact h.wakeup (by rw [hp]; nofun) rfl (by rw [hp]; rfl) (.inl rfl) rfl (by rw [hp]; rfl)
      (by rw [hp]; rfl) (.inl rfl)
  · next r hp =>
    rw [hp] at hat
    split at he
    · next hfree =>
      cases he
      exact h.acquire hfree (hat.go rfl (.inr rfl) (.inl rfl) rfl (.inr ⟨rfl, rfl⟩)) rfl
        (by rw [hp]; exact .inr rfl) (by rw [hp]; exact .inr rfl)
    · cases he
  · next r hp =>
    split at he
    · next hlast =>
      split at he
      · cases he
      · next hfree =>
        cases he
        exact h.putTaken hp (Bool.eq_false_iff.mpr hfree) hlast.2.1
    · cases he
      rw [hp] at hat
      exact h.keep (hat.go rfl (.inr rfl) (.inl rfl) rfl (.inr ⟨rfl, rfl⟩)) (by rw [hp]; rfl)
        (by rw [hp]; exact .inr rfl) (by rw [hp]; exact .inr rfl)
  · next r hp =>
    rw [hp] at hat
    cases he
    exact h.release (by rw [hp]; rfl) (hat.go rfl (.inr rfl) (.inr rfl) rfl (.inr ⟨rfl, rfl⟩)) rfl
      (by rw [hp]; exact .inr rfl) (by rw [hp]; exact .inr rfl)
  · next r hp =>
    cases he
    exact h.change _ (hat.holding r (by rw [hp]; rfl)) (by rw [hp]; rfl) rfl (by rw [hp]; rfl)
      (by rw [hp]; rfl) (by rw [hp]; rfl) (by rw [hp]; rfl)
  · next r hp =>
    cases he
    exact h.update (hat.holding r (by rw [hp]; rfl)) (by rw [hp]; rfl) rfl (by rw [hp]; rfl)
      (by rw [hp]; rfl) (by rw [hp]; rfl) (by rw [hp]; rfl)
  · next r hp =>
    cases he
    exact h.change _ (hat.holding r (by rw [hp]; rfl)) (by rw [hp]; rfl) rfl (by rw [hp]; rfl)
      (by rw [hp]; rfl) (by rw [hp]; rfl) (by rw [hp]; rfl)
  · next r hp =>
    cases he
    exact h.update (hat.holding r (by rw [hp]; rfl)) (by rw [hp]; rfl) rfl (by rw [hp]; rfl)
      (by rw [hp]; rfl) (by rw [hp]; rfl) (by rw [hp]; rfl)
  · next r hp =>
    rw [hp] at hat
    split at he
    · next hfree =>
      cases he
      exact h.acquire hfree (hat.go rfl (.inr rfl) (.inr rfl) rfl (.inr ⟨rfl, rfl⟩)) rfl
        (by rw [hp]; exact .inr rfl) (by rw [hp]; exact .inr rfl)
    · cases he
  · next r hp =>
    cases he
    have hr : r ∈ s.held p := hat.holding r (by rw [hp]; rfl)
    have href := hat.ref
    rw [hp] at href
    obtain ⟨h1, h2⟩ := h.at_setFree (v := false) hr (by rw [hp]; rfl)
    refine h.setFree (by rw [hp]; rfl) rfl hr (hat.valid r hr (by rw [hp]; nofun))
      (At.of_plain rfl href (fun r' hr' => (h1 r' hr').1) nofun h2 fun r' hr' hm => ?_)
      (by rw [hp]; exact .inr rfl) (by rw [hp]; exact .inr rfl)
    cases hr'
    exact absurd rfl (h1 r hm).2
  · next r hp =>
    cases he
    exact h.wakeup (by rw [hp]; nofun) rfl (by rw [hp]; rfl) (by rw [hp]; exact .inr rfl) rfl
      (by rw [hp]; rfl) (by rw [hp]; rfl) (by rw [hp]; exact .inr rfl)
  · next r hp =>
    cases he
    exact h.drop hp
  · next hp =>
    rw [hp] at hat
    cases he
    exact h.release (by rw [hp]; rfl) (hat.go rfl (.inl rfl) (.inl rfl) rfl (.inl rfl)) rfl
      (.inl rfl) (.inl rfl)

theorem call (h : Inv s) (hp : s.pc p = .user) (hc : plain c = true) (ho : owns c = false)
    (href : ∀ r, refOf c = some r → r ∈ s.refs) (hhold : ∀ r, holding c = some r → r ∈ s.held p)
    (hput : ∀ r, putOf c = some r → ∀ q, refOf (s.pc q) ≠ some r ∧ r ∉ s.held q)
    (hother : ∀ r, refOf c = some r → ∀ q, putOf (s.pc q) ≠ some r) : Inv (s.goto p c) := by
  have hat := h.procs p
  rw [hp] at hat
  refine h.move (l := s.lock) (At.of_plain hc href hat.held hhold (fun r hr => hat.valid r hr nofun)
    fun r hr hm => absurd hm (hput r hr p).2) ?_ (fun _ _ => Iff.rfl) (fun r hr q _ => hput r hr q)
    fun q hq r hr => ⟨fun hc => hother r hc q hr, (h.apart q p hq.symm r hr).2⟩
  rw [h.lock p, hp, ho]
  exact Iff.rfl

theorem step (h : Inv s) {a : Act m n} (he : Icache.step ninodes s a = some t) : Inv t := by
  cases a with
  | ialloc p dev type =>
    simp only [Icache.step] at he
    split at he
    · next hp =>
      cases he
      exact h.call hp rfl rfl nofun nofun nofun nofun
    · cases he
  | iget p dev inum =>
    simp only [Icache.step] at he
    split at he
    · next hp =>
      cases he
      exact h.call hp rfl rfl nofun nofun nofun nofun
    · cases he
  | idup p r =>
    simp only [Icache.step] at he
    split at he
    · next hp =>
      cases he
      exact h.call hp.1 rfl rfl (fun r' hr' => by cases hr'; exact hp.2.1) nofun nofun
        fun r' hr' => by cases hr'; exact hp.2.2
    · cases he
  | ilock p r =>
    simp only [Icache.step] at he
    split at he
    · next hp =>
      cases he
      exact h.call hp.1 rfl rfl (fun r' hr' => by cases hr'; exact hp.2.1) nofun nofun
        fun r' hr' => by cases hr'; exact hp.2.2
    · cases he
  | modify p r d =>
    simp only [Icache.step] at he
    split at he
    · next hp =>
      cases he
      have hsame : (s.setInode r.2 { s.inode r.2 with din := d }).goto p .user =
          s.setInode r.2 { s.inode r.2 with din := d } := by
        rw [State.goto, ← hp.1]
        exact congrArg (fun f => { s.setInode r.2 { s.inode r.2 with din := d } with pc := f })
          (update_eq_self p s.pc)
      rw [← hsame]
      exact h.change d hp.2 (by rw [hp.1]; rfl) rfl (by rw [hp.1]) (by rw [hp.1]) (by rw [hp.1])
        (by rw [hp.1])
    · cases he
  | iupdate p r =>
    simp only [Icache.step] at he
    split at he
    · next hp =>
      cases he
      have hsame : (s.iupdate r.2).goto p .user = s.iupdate r.2 := by
        rw [State.goto, ← hp.1]
        exact congrArg (fun f => { s.iupdate r.2 with pc := f }) (update_eq_self p s.pc)
      rw [← hsame]
      exact h.update hp.2 (by rw [hp.1]; rfl) rfl (by rw [hp.1]) (by rw [hp.1]) (by rw [hp.1])
        (by rw [hp.1])
    · cases he
  | iunlock p r =>
    simp only [Icache.step] at he
    split at he
    · next hp =>
      cases he
      refine h.call hp.1 rfl rfl (fun r' hr' => ?_) (fun r' hr' => ?_) nofun fun r' hr' q hq => ?_
      · cases hr'
        exact (h.procs p).held r hp.2
      · cases hr'
        exact hp.2
      -- a reference with which an inode is locked is given up by `iput` of the same process only
      · cases hr'
        by_cases e : q = p
        · rw [e, hp.1] at hq
          cases hq
        · exact (h.apart q p (Ne.symm e) r hq).2 hp.2
    · cases he
  | iput p r =>
    simp only [Icache.step] at he
    split at he
    · next hp =>
      cases he
      exact h.call hp.1 rfl rfl (fun r' hr' => by cases hr'; exact hp.2.1) nofun
        (fun r' hr' => by cases hr'; exact hp.2.2)
        fun r' hr' q hq => by cases hr'; exact (hp.2.2 q).1 (refOf_of_putOf hq)
    · cases he
  | exec p =>
    simp only [Icache.step] at he
    split at he
    · next t' ht =>
      cases he
      exact h.exec ht
    · cases he
  | wake p =>
    simp only [Icache.step] at he
    split at he
    · next r hp =>
      cases he
      have hat := h.procs p
      rw [hp] at hat
      exact h.keep (hat.go rfl (.inr rfl) (.inl rfl) rfl (.inl rfl)) (by rw [hp]; rfl)
        (.inl rfl) (by rw [hp]; exact .inr rfl)
    · cases he

end Inv

theorem inv_run {ninodes : Nat} {acts : List (Act m n)} (h : Inv s)
    (hrun : runActs ninodes acts s = some t) : Inv t := by
  induction acts generalizing s with
  | nil =>
    cases hrun
    exact h
  | cons a acts ih =>
    obtain ⟨s₁, h1, h2⟩ := Option.bind_eq_some_iff.mp hrun
    exact ih (h.step h1) h2

end Steps

/-! ### The cache is coherent -/

section Results

variable {s t : State m n} {p : Fin m} {r : Ref n} {i : Fin n} {ninodes : Nat}

theorem key_setInode {inode : Fin n → Inode} {j : Fin n} {x : Inode} (h : x.key = (inode j).key)
    (i : Fin n) : (update inode j x i).key = (inode i).key := by
  by_cases e : i = j
  · rw [e, update_self, h]
  · rw [update_of_ne e]

/-- Only `iget` gives a slot to another inode, and it takes one that has no reference. -/
theorem exec_key (h : Inv s) (he : exec ninodes s p = .next t)
    (hk : (t.inode i).key ≠ (s.inode i).key) : (s.inode i).ref = 0 := by
  have hat := h.procs p
  rw [exec] at he
  split at he
  case h_4 dev inum k empty hp =>
    split at he
    · split at he
      · cases he
        exact absurd (key_setInode (by rfl) i) hk
      · cases he
        exact absurd rfl hk
    · split at he
      · cases he
      · next e =>
        cases he
        by_cases hi : i = e
        · rw [hi]
          exact hat.empty _ _ _ e hp
        · exact absurd (congrArg Inode.key (update_of_ne hi _ s.inode)) hk
  all_goals
    (repeat' split at he) <;> first
      | cases he
        done
      | cases he
        exact absurd rfl hk
      | cases he
        exact absurd (key_setInode (by rfl) i) hk

theorem step_key (h : Inv s) {a : Act m n} (he : step ninodes s a = some t)
    (hk : (t.inode i).key ≠ (s.inode i).key) : (s.inode i).ref = 0 := by
  cases a with
  | exec p =>
    simp only [step] at he
    split at he
    · next t' ht =>
      cases he
      exact exec_key h ht hk
    · cases he
  | modify p r d =>
    simp only [step] at he
    split at he
    · cases he
      exact absurd (key_setInode (by rfl) i) hk
    · cases he
  | _ =>
    simp only [step] at he
    split at he
    · cases he
      exact absurd rfl hk
    · cases he

/-- **The inode cache is coherent.** In every state that any interleaving of `iget`, `idup`, `ilock`,
`iunlock` and `iput` leads to, no inode has two slots in use; a count is the number of references
to its slot; the next step gives another inode to slots without references only; `I_BUSY` is set
exactly for the slots that one process has locked; and when `ilock` returns, the process has the
inode, valid, as the last `iunlock` left it, or as it is on the disk if the slot was filled since. -/
theorem inode_cache_coherent (ninodes : Nat) (disk : Nat × Nat → Dinode) (acts : List (Act m n))
    (s : State m n) (hrun : runActs ninodes acts (init disk) = some s) :
    (∀ i j, 0 < (s.inode i).ref → 0 < (s.inode j).ref → (s.inode i).key = (s.inode j).key → i = j) ∧
      (∀ i, (s.inode i).ref = s.refs.countP (·.2 = i)) ∧
      (∀ a t, step ninodes s a = some t → ∀ i, (t.inode i).key ≠ (s.inode i).key →
        (s.inode i).ref = 0) ∧
      (∀ i, (s.inode i).busy = true ↔ ∃! p, ∃ r ∈ s.held p, r.2 = i) ∧
      ∀ p r, s.pc p = .locked r → r ∈ s.held p ∧ (s.inode r.2).valid = true ∧
        (s.left r.2 = some (s.inode r.2).din ∨
          s.left r.2 = none ∧ (s.inode r.2).din = s.disk (s.inode r.2).key) := by
  have h := inv_run (inv_init disk) hrun
  refine ⟨h.cache.unique, h.cache.ref, fun a t ht i hk => step_key h ht hk, fun i => ?_,
    fun p r hp => ?_⟩
  · rw [h.cache.busy i]
    constructor
    · rintro ⟨p, r, hr, hi⟩
      exact ⟨p, ⟨r, hr, hi⟩, fun q ⟨r', hr', hi'⟩ => (h.cache.one q p r' r hr' hr (hi'.trans hi.symm)).1⟩
    · rintro ⟨p, ⟨r, hr, hi⟩, -⟩
      exact ⟨p, r, hr, hi⟩
  · have hat := h.procs p
    rw [hp] at hat
    have hr : r ∈ s.held p := hat.holding r rfl
    exact ⟨hr, hat.valid r hr nofun, (hat.locked r rfl).imp id fun ⟨h1, h2, _⟩ => ⟨h1, h2⟩⟩

/-- A process drops the last reference to an inode without links. While it frees the inode,
another process allocates an inode, gets the same one and the slot that is still there, and waits for
its lock. -/
def reuseInWindow : List (Act 2 2) :=
  List.flatten [[.iget 0 1 5], List.replicate 5 (.exec 0), [.ilock 0 (0, 0)],
    List.replicate 7 (.exec 0), [.iunlock 0 (0, 0)], List.replicate 4 (.exec 0), [.iput 0 (0, 0)],
    List.replicate 7 (.exec 0), [.ialloc 1 1 3], List.replicate 8 (.exec 1), [.ilock 1 (1, 0)],
    List.replicate 3 (.exec 1), List.replicate 5 (.exec 0), List.replicate 5 (.exec 1)]

/-- All inodes are allocated, and number 5 has no link. -/
def reuseDisk (x : Nat × Nat) : Dinode :=
  { Dinode.zero with type := 2, nlink := if x.2 = 5 then 0 else 1 }

theorem inode_cache_coherent_reuseInWindow :
    ∃ s, runActs 6 reuseInWindow (init reuseDisk) = some s ∧ s.pc 1 = .locked (1, 0) ∧
      (s.inode 0).din.type = 3 ∧ s.refs = [(1, 0)] ∧ (s.inode 0).ref = 1 ∧
      (1, 0) ∈ s.held 1 ∧ (s.inode 0).valid = true := by
  have hrun : (runActs 6 reuseInWindow (init reuseDisk)).map
      (fun s => (s.pc 1, (s.inode 0).din.type, s.refs)) = some (.locked (1, 0), 3, [(1, 0)]) := by
    decide +kernel
  obtain ⟨s, hs, h⟩ := Option.map_eq_some_iff.mp hrun
  obtain ⟨hpc, h⟩ := Prod.ext_iff.mp h
  obtain ⟨htype, hrefs⟩ := Prod.ext_iff.mp h
  obtain ⟨-, hcount, -, -, hlocked⟩ := inode_cache_coherent _ _ _ s hs
  obtain ⟨h1, h2, -⟩ := hlocked 1 (1, 0) hpc
  refine ⟨s, hs, hpc, htype, hrefs, ?_, h1, h2⟩
  rw [hcount, show s.refs = [(1, 0)] from hrefs]
  rfl

end Results

end Icache

end Xv6
