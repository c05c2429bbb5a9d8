import Xv6.Bio

/-!
# The buffer cache invariant

What holds of the cache itself (`Cache`): the list has every buffer once, no sector is cached twice,
a busy buffer has one owner, a buffer that nobody is changing has the contents given to its
sector last, and so does the disk unless a dirty buffer has them. And what each process may rely on
where it is (`At`): the buffers it uses are its own, and while it holds `bcache.lock` what it has
seen of the list stays true.

A process only depends on the buffers it owns and, while it holds the lock, on the list and the
sectors of the buffers (`At.frame`).
-/

open Function List

namespace Xv6

namespace Bio

open Ide (Buf)
open Linked

variable {α : Type} {n : Nat}

/-! ### The invariant -/

/-- The process holds `bcache.lock`. -/
def owns : Pc n → Bool
  | .find _ _ _ _ => true
  | .recycle _ _ _ _ => true
  | .got _ _ _ _ => true
  | .relink _ _ => true
  | .clearBusy _ _ => true
  | .wakeup _ _ => true
  | .leave _ => true
  | _ => false

/-- The buffer that the caller goes on with. -/
def Caller.bufs : Caller n → List (Fin n)
  | .user => []
  | .logWrite b _ => [b]

/-- The buffers of the calls that a process is in. -/
def uses : Pc n → List (Fin n)
  | .user => []
  | .enter _ _ k => k.bufs
  | .find _ _ _ k => k.bufs
  | .asleep _ _ _ k => k.bufs
  | .recycle _ _ _ k => k.bufs
  | .got _ _ b k => b :: k.bufs
  | .fill _ _ b k => b :: k.bufs
  | .reading _ _ b k => b :: k.bufs
  | .ret _ _ b k => b :: k.bufs
  | .bwrite b k => b :: k.bufs
  | .writing b k => b :: k.bufs
  | .brelse b k => b :: k.bufs
  | .relink b k => b :: k.bufs
  | .clearBusy b k => b :: k.bufs
  | .wakeup _ k => k.bufs
  | .leave k => k.bufs
  | .logCheck b => [b]
  | .logFind b _ => [b]
  | .logCopy b _ lbuf => [lbuf, b]
  | .logCount b _ => [b]
  | .logDirty b => [b]

/-- The sector that was asked for, with the buffer that `bget` has found for it. -/
def answer : Pc n → Option ((Nat × Nat) × Fin n)
  | .got dev sector b _ => some ((dev, sector), b)
  | .fill dev sector b _ => some ((dev, sector), b)
  | .reading dev sector b _ => some ((dev, sector), b)
  | .ret dev sector b _ => some ((dev, sector), b)
  | _ => none

/-- The buffer that may have no data yet. -/
def filling : Pc n → Option (Fin n)
  | .got _ _ b _ => some b
  | .fill _ _ b _ => some b
  | .reading _ _ b _ => some b
  | _ => none

/-- The buffer that the process has not changed yet, or does not change any more. -/
def untouched : Pc n → Option (Fin n)
  | .got _ _ b _ => some b
  | .fill _ _ b _ => some b
  | .reading _ _ b _ => some b
  | .ret _ _ b _ => some b
  | .brelse b _ => some b
  | .relink b _ => some b
  | .clearBusy b _ => some b
  | _ => none

/-- The first loop of `bget` has come to `c` and has not met the sector `x`. -/
def Searched (s : State n α) (x : Nat × Nat) (c : Node n) : Prop :=
  ∃ l r : List (Fin n), Ring s.links.next s.links.prev none ((l ++ r).map some) ∧ (∀ b, b ∈ l ++ r) ∧
    c = r.head? ∧ ∀ b ∈ l, key (s.buf b) ≠ x

/-- What process `p` may rely on at `c`. -/
structure At (s : State n α) (p : Nat) (c : Pc n) : Prop where
  find : ∀ dev sector b k, c = .find dev sector b k → Searched s (dev, sector) b
  absent : ∀ dev sector b k, c = .recycle dev sector b k → ∀ b, key (s.buf b) ≠ (dev, sector)
  nodup : (uses c).Nodup
  uses : ∀ b ∈ uses c, b ∈ s.holds p
  answer : ∀ x b, answer c = some (x, b) → key (s.buf b) = x
  valid : ∀ b ∈ s.holds p, filling c ≠ some b → (s.buf b).valid = true
  untouched : ∀ b, untouched c = some b → s.changed b = false
  reading : ∀ dev sector b k, c = .reading dev sector b k → (s.buf b).valid = false
  writing : ∀ b k, c = .writing b k → (s.buf b).dirty = true

/-- What holds of the cache, for a disk that was `disk` at first. -/
structure Cache (disk : Nat × Nat → α) (s : State n α) : Prop where
  ring : ∃ l : List (Fin n), Ring s.links.next s.links.prev none (l.map some) ∧ ∀ b, b ∈ l
  unique : ∀ b c, (s.buf b).dev ≠ NODEV → key (s.buf b) = key (s.buf c) → b = c
  busy : ∀ b, (s.buf b).busy = true ↔ ∃ p, b ∈ s.holds p
  one : ∀ p q b, b ∈ s.holds p → b ∈ s.holds q → p = q
  nodup : ∀ p, (s.holds p).Nodup
  clean : ∀ b, (s.buf b).valid = false → (s.buf b).dirty = false
  changed : ∀ b, s.changed b = true → (s.buf b).busy = true
  fresh : ∀ b, (s.buf b).dev ≠ NODEV → (s.buf b).valid = true → s.changed b = false →
    (s.buf b).data = lastGiven disk s.given (key (s.buf b))
  synced : ∀ x : Nat × Nat, x.1 ≠ NODEV → (∀ b, key (s.buf b) = x → (s.buf b).dirty = false) →
    s.disk x = lastGiven disk s.given x

structure Inv (disk : Nat × Nat → α) (s : State n α) : Prop where
  lock : ∀ p, s.lock = some p ↔ owns (s.pc p) = true
  cache : Cache disk s
  procs : ∀ p, At s p (s.pc p)

section Steps

variable {disk : Nat × Nat → α} {s t : State n α} {p q : Nat} {b : Fin n} {c : Pc n}

/-- A process depends on its own buffers, and on the list while it holds the lock. -/
theorem At.frame (h : At s q c) (hholds : t.holds q = s.holds q)
    (hbuf : ∀ b ∈ s.holds q, t.buf b = s.buf b ∧ t.changed b = s.changed b)
    (hscan : owns c = true → t.links = s.links ∧ ∀ b, key (t.buf b) = key (s.buf b)) : At t q c where
  find dev sector b k hc := by
    obtain ⟨hlinks, hkey⟩ := hscan (hc ▸ rfl)
    obtain ⟨l, r, h1, h2, h3, h4⟩ := h.find dev sector b k hc
    exact ⟨l, r, by rw [hlinks]; exact h1, h2, h3, fun b hb => by rw [hkey]; exact h4 b hb⟩
  absent dev sector b k hc b' := by
    rw [(hscan (hc ▸ rfl)).2]
    exact h.absent dev sector b k hc b'
  nodup := h.nodup
  uses b hb := hholds ▸ h.uses b hb
  answer x b hc := by
    have hu : b ∈ Bio.uses c := by
      cases c <;> first | (cases hc; exact mem_cons_self) | cases hc
    rw [(hbuf b (h.uses b hu)).1]
    exact h.answer x b hc
  valid b hb hf := by
    rw [hholds] at hb
    rw [(hbuf b hb).1]
    exact h.valid b hb hf
  untouched b hc := by
    have hu : b ∈ Bio.uses c := by
      cases c <;> first | (cases hc; exact mem_cons_self) | cases hc
    rw [(hbuf b (h.uses b hu)).2]
    exact h.untouched b hc
  reading dev sector b k hc := by
    rw [(hbuf b (h.uses b (hc ▸ mem_cons_self))).1]
    exact h.reading dev sector b k hc
  writing b k hc := by
    rw [(hbuf b (h.uses b (hc ▸ mem_cons_self))).1]
    exact h.writing b k hc

theorem At.wake (h : At s p c) (b : Fin n) : At s p (c.wake b) := by
  cases c with
  | asleep b' dev sector k =>
    rw [Pc.wake]
    split
    · exact ⟨nofun, nofun, h.nodup, h.uses, nofun, h.valid, nofun, nofun, nofun⟩
    · exact h
  | _ => exact h

theorem owns_wake (c : Pc n) (b : Fin n) : owns (c.wake b) = owns c := by
  cases c with
  | asleep b' dev sector k =>
    rw [Pc.wake]
    split <;> rfl
  | _ => rfl

/-! ### The links -/

theorem head?_map_some (l : List (Fin n)) : (l.map some).head?.getD none = l.head? := by
  cases l <;> rfl

theorem Links.insert_ring {L : Links n} {l : List (Fin n)}
    (h : Ring L.next L.prev none (l.map some)) (hb : b ∉ l) :
    Ring (L.insert (some b)).next (L.insert (some b)).prev none ((b :: l).map some) := by
  have hnone : Function.update L.next (some b) (L.next none) none = L.next none :=
    update_of_ne (Option.some_ne_none b).symm ..
  have hmem : some b ∉ none :: l.map some := by simpa using hb
  have hring := h.insert hmem
  simp only [Links.insert, hnone]
  exact hring

theorem Links.remove_ring {L : Links n} {l r : List (Fin n)}
    (h : Ring L.next L.prev none ((l ++ b :: r).map some)) :
    Ring (L.remove (some b)).next (L.remove (some b)).prev none ((l ++ r).map some) := by
  rw [map_append, map_cons] at h
  have hnd := (nodup_append.mp (nodup_cons.mp h.nodup).2).2.1
  -- the first assignment does not change `b->prev`, because `b` is not its own successor
  have hself : L.next (some b) ≠ some b := by
    rw [h.next_eq, head?_map_some]
    intro e
    exact (nodup_cons.mp hnd).1 (mem_map.mpr ⟨b, mem_of_head? e, rfl⟩)
  have hprev : Function.update L.prev (L.next (some b)) (L.prev (some b)) (some b) =
      L.prev (some b) := update_of_ne hself.symm ..
  rw [map_append]
  simp only [Links.remove, hprev]
  exact h.remove

theorem binit_ring : Ring (binit n).next (binit n).prev none ((List.finRange n).reverse.map some) := by
  -- the loop over the first buffers makes a ring of them
  have hloop : ∀ (bs l : List (Fin n)) (L : Links n), Ring L.next L.prev none (l.map some) →
      (bs.reverse ++ l).Nodup →
      let L' := bs.foldl (fun L b => L.insert (some b)) L
      Ring L'.next L'.prev none ((bs.reverse ++ l).map some) := by
    intro bs
    induction bs with
    | nil => exact fun l L h _ => h
    | cons b bs ih =>
      intro l L h hnd
      rw [reverse_cons, append_assoc] at hnd ⊢
      have hb : b ∉ l := (nodup_cons.mp (nodup_append.mp hnd).2.1).1
      exact ih (b :: l) _ (Links.insert_ring h hb) hnd
  have h := hloop (List.finRange n) [] ⟨fun _ => none, fun _ => none⟩ ⟨⟨rfl, rfl⟩, by simp⟩
    (by rw [append_nil]; exact nodup_reverse.mpr (nodup_finRange n))
  rw [append_nil] at h
  exact h

theorem inv_init (disk : Nat × Nat → α) (data : Fin n → α) (log : Log) :
    Inv disk (init disk data log) where
  lock _ := iff_of_false nofun nofun
  cache :=
    { ring := ⟨_, binit_ring, fun b => by simp⟩
      unique := fun _ _ hdev => absurd rfl hdev
      busy := fun _ => iff_of_false nofun nofun
      one := nofun
      nodup := fun _ => nodup_nil
      clean := fun _ _ => rfl
      changed := nofun
      fresh := nofun
      synced := fun _ _ _ => rfl }
  procs _ := ⟨nofun, nofun, nodup_nil, nofun, nofun, nofun, nofun, nofun, nofun⟩

/-! ### The kinds of steps -/

namespace Inv

/-- The other processes, when `p` changes only buffers of its own or buffers that nobody has. -/
theorem others (h : Inv disk s) (hholds : ∀ q, q ≠ p → t.holds q = s.holds q)
    (hbuf : ∀ q b, q ≠ p → b ∈ s.holds q → t.buf b = s.buf b ∧ t.changed b = s.changed b)
    (hscan : owns (s.pc p) = false → t.links = s.links ∧ ∀ b, key (t.buf b) = key (s.buf b))
    (hq : q ≠ p) : At t q (s.pc q) := by
  refine (h.procs q).frame (hholds q hq) (fun b => hbuf q b hq) fun howns => hscan ?_
  -- only one of the two has the lock
  cases ho : owns (s.pc p) with
  | false => rfl
  | true =>
    have h1 := (h.lock q).mpr howns
    rw [(h.lock p).mpr ho] at h1
    exact absurd (Option.some.inj h1).symm hq

/-- A step of process `p` to `c`, from what it leaves of the cache. -/
theorem goto (h : Inv disk s) (hpc : t.pc = Function.update s.pc p c)
    (hlock : t.lock = some p ↔ owns c = true) (hlocks : ∀ q, q ≠ p → (t.lock = some q ↔ s.lock = some q))
    (hcache : Cache disk t) (hp : At t p c) (hq : ∀ q, q ≠ p → At t q (s.pc q)) : Inv disk t where
  lock q := by
    rw [hpc]
    by_cases e : q = p
    · rw [e, update_self]
      exact hlock
    · rw [update_of_ne e, hlocks q e]
      exact h.lock q
  cache := hcache
  procs q := by
    rw [hpc]
    by_cases e : q = p
    · rw [e, update_self]
      exact hp
    · rw [update_of_ne e]
      exact hq q e

theorem move (h : Inv disk s) {l : Option Nat} {g : Log} (hp : At s p c)
    (hlock : l = some p ↔ owns c = true) (hlocks : ∀ q, q ≠ p → (l = some q ↔ s.lock = some q)) :
    Inv disk ({ s with lock := l, log := g }.goto p c) := by
  obtain ⟨h1, h2, h3, h4, h5, h6, h7, h8, h9⟩ := h.cache
  obtain ⟨a1, a2, a3, a4, a5, a6, a7, a8, a9⟩ := hp
  exact h.goto rfl hlock hlocks ⟨h1, h2, h3, h4, h5, h6, h7, h8, h9⟩
    ⟨a1, a2, a3, a4, a5, a6, a7, a8, a9⟩
    fun q hq => h.others (fun _ _ => rfl) (fun _ _ _ _ => ⟨rfl, rfl⟩) (fun _ => ⟨rfl, fun _ => rfl⟩) hq

theorem keep (h : Inv disk s) {g : Log} (hp : At s p c) (ho : owns (s.pc p) = owns c) :
    Inv disk ({ s with log := g }.goto p c) :=
  h.move hp (by rw [h.lock p, ho]) fun _ _ => Iff.rfl

theorem acquire (h : Inv disk s) (hfree : s.lock = none) (hp : At s p c) (ho : owns c = true) :
    Inv disk ({ s with lock := some p }.goto p c) :=
  h.move hp (iff_of_true rfl ho) fun q hq =>
    iff_of_false (fun e => hq (Option.some.inj e).symm) (by rw [hfree]; nofun)

theorem release (h : Inv disk s) (hown : owns (s.pc p) = true) (hp : At s p c)
    (ho : owns c = false) : Inv disk ({ s with lock := none }.goto p c) :=
  h.move hp (iff_of_false nofun (by rw [ho]; nofun)) fun q hq =>
    iff_of_false nofun (by
      rw [(h.lock p).mpr hown]
      exact fun e => hq (Option.some.inj e).symm)

theorem mem_ne (h : Inv disk s) (hb : b ∈ s.holds p) (hq : q ≠ p) {b' : Fin n}
    (hb' : b' ∈ s.holds q) : b' ≠ b := fun e => hq (h.cache.one q p b (e ▸ hb') hb)

/-- A step that changes a buffer of the process, and its sector on the disk and in what was given. -/
theorem update (h : Inv disk s) {x : Buf α} {v : Bool} (hb : b ∈ s.holds p)
    (hpc : t.pc = Function.update s.pc p c) (hlock : t.lock = s.lock) (ho : owns (s.pc p) = owns c)
    (hlinks : t.links = s.links) (hholds : t.holds = s.holds)
    (hbuf : t.buf = Function.update s.buf b x) (hch : t.changed = Function.update s.changed b v)
    (hkey : key x = key (s.buf b)) (hbusy : x.busy = true) (hclean : x.valid = false → x.dirty = false)
    (hdisk : ∀ y, y ≠ key (s.buf b) → t.disk y = s.disk y)
    (hgiven : ∀ y, y ≠ key (s.buf b) → lastGiven disk t.given y = lastGiven disk s.given y)
    (hfresh : x.dev ≠ NODEV → x.valid = true → v = false →
      x.data = lastGiven disk t.given (key (s.buf b)))
    (hsync : x.dev ≠ NODEV → x.dirty = false →
      t.disk (key (s.buf b)) = lastGiven disk t.given (key (s.buf b)))
    (hp : At t p c) : Inv disk t := by
  have hself : t.buf b = x := by rw [hbuf, update_self]
  have hne : ∀ {b'}, b' ≠ b → t.buf b' = s.buf b' := fun e => by
    rw [hbuf, update_of_ne e]
  have hcne : ∀ {b'}, b' ≠ b → t.changed b' = s.changed b' := fun e => by
    rw [hch, update_of_ne e]
  have hkeys : ∀ b', key (t.buf b') = key (s.buf b') := fun b' => by
    by_cases e : b' = b
    · rw [e, hself, hkey]
    · rw [hne e]
  have hdevs : ∀ b', (t.buf b').dev = (s.buf b').dev := fun b' => (Prod.ext_iff.mp (hkeys b')).1
  have hbusy' : ∀ b', (t.buf b').busy = (s.buf b').busy := fun b' => by
    by_cases e : b' = b
    · rw [e, hself, hbusy, (h.cache.busy b).mpr ⟨p, hb⟩]
    · rw [hne e]
  refine h.goto hpc (by rw [hlock, h.lock p, ho]) (fun q _ => by rw [hlock])
    ⟨by rw [hlinks]; exact h.cache.ring, fun b₁ b₂ => ?_, fun b' => ?_, ?_, ?_, fun b' => ?_,
      fun b' => ?_, fun b' => ?_, fun y hy hall => ?_⟩ hp fun q hq =>
    h.others (fun _ _ => by rw [hholds])
      (fun q b' hq hb' => ⟨hne (h.mem_ne hb hq hb'), hcne (h.mem_ne hb hq hb')⟩)
      (fun _ => ⟨hlinks, hkeys⟩) hq
  · rw [hdevs, hkeys, hkeys]
    exact h.cache.unique b₁ b₂
  · rw [hbusy', hholds]
    exact h.cache.busy b'
  · rw [hholds]
    exact h.cache.one
  · rw [hholds]
    exact h.cache.nodup
  · by_cases e : b' = b
    · rw [e, hself]
      exact hclean
    · rw [hne e]
      exact h.cache.clean b'
  · rw [hbusy']
    by_cases e : b' = b
    · rw [e]
      exact fun _ => (h.cache.busy b).mpr ⟨p, hb⟩
    · rw [hcne e]
      exact h.cache.changed b'
  · intro hdev
    by_cases e : b' = b
    · rw [e, hkeys, hself]
      rw [e, hself] at hdev
      rw [hch, update_self]
      exact hfresh hdev
    · rw [hne e] at hdev ⊢
      rw [hcne e, hgiven _ fun hk => e (h.cache.unique b' b hdev hk)]
      exact h.cache.fresh b' hdev
  · by_cases e : y = key (s.buf b)
    · rw [e]
      refine hsync ?_ (hself ▸ hall b (by rw [hkeys, e]))
      have hdev : x.dev = (s.buf b).dev := (Prod.ext_iff.mp hkey).1
      rw [e] at hy
      rw [hdev]
      exact hy
    · rw [hdisk y e, hgiven y e]
      refine h.cache.synced y hy fun b' hb' => ?_
      have hbb : b' ≠ b := fun hbb => e (by rw [← hb', hbb])
      have := hall b' (by rw [hkeys, hb'])
      rwa [hne hbb] at this

theorem notMem_of_free (h : Inv disk s) (hfree : (s.buf b).busy = false) (q : Nat) :
    b ∉ s.holds q := by
  intro hm
  have := (h.cache.busy b).mpr ⟨q, hm⟩
  rw [hfree] at this
  cases this

/-- `bget` takes a buffer that nobody has, for its sector or for a new one. -/
theorem take (h : Inv disk s) {x : Buf α} {dev sector : Nat} {k : Caller n}
    (hown : owns (s.pc p) = true) (hfree : (s.buf b).busy = false) (huses : uses (s.pc p) = k.bufs)
    (hfill : filling (s.pc p) = none) (hkey : key x = (dev, sector)) (hbusy : x.busy = true)
    (hclean : x.valid = false → x.dirty = false) (hdirty : x.dirty = (s.buf b).dirty)
    (hother : ∀ b', b' ≠ b → x.dev ≠ NODEV → key (s.buf b') ≠ key x)
    (hfresh : x.dev ≠ NODEV → x.valid = true → x.data = lastGiven disk s.given (key x))
    (hold : key x = key (s.buf b) ∨ (s.buf b).dirty = false) :
    Inv disk ((s.take p b x).goto p (.got dev sector b k)) := by
  have hself : (s.take p b x).buf b = x := update_self ..
  have hne : ∀ {b'}, b' ≠ b → (s.take p b x).buf b' = s.buf b' := fun e => update_of_ne e ..
  have hholds : (s.take p b x).holds p = b :: s.holds p := update_self ..
  have hholdsNe : ∀ {q}, q ≠ p → (s.take p b x).holds q = s.holds q := fun e =>
    update_of_ne e ..
  have hmem : ∀ {q b'}, b' ≠ b → (b' ∈ (s.take p b x).holds q ↔ b' ∈ s.holds q) := by
    intro q b' e
    by_cases hq : q = p
    · rw [hq, hholds, mem_cons]
      exact or_iff_right e
    · rw [hholdsNe hq]
  have hmemb : ∀ {q}, b ∈ (s.take p b x).holds q → q = p := fun {q} hm => by
    by_contra hq
    rw [hholdsNe hq] at hm
    exact h.notMem_of_free hfree q hm
  have hfreeb := h.notMem_of_free hfree
  have hat := h.procs p
  refine h.goto rfl (iff_of_true ((h.lock p).mpr hown) rfl) (fun _ _ => Iff.rfl)
    (c := .got dev sector b k) ?_ ?_ fun q hq => h.others (p := p) (fun _ hq => hholdsNe hq)
      (fun q b' _ hb' => ⟨hne fun e => hfreeb q (e ▸ hb'), rfl⟩) (by rw [hown]; nofun) hq
  · refine ⟨h.cache.ring, fun b₁ b₂ hdev hk => ?_, fun b' => ?_, fun q r b' hq hr => ?_, fun q => ?_,
      fun b' => ?_, fun b' hb' => ?_, fun b' => ?_, fun y hy hall => ?_⟩
    · change ((s.take p b x).buf b₁).dev ≠ NODEV at hdev
      change key ((s.take p b x).buf b₁) = key ((s.take p b x).buf b₂) at hk
      by_cases e₁ : b₁ = b <;> by_cases e₂ : b₂ = b
      · rw [e₁, e₂]
      · rw [e₁, hself] at hdev hk
        rw [hne e₂] at hk
        exact absurd hk.symm (hother b₂ e₂ hdev)
      · rw [hne e₁] at hdev hk
        rw [e₂, hself] at hk
        have hdevx : (s.buf b₁).dev = x.dev := (Prod.ext_iff.mp hk).1
        exact absurd hk (hother b₁ e₁ (hdevx ▸ hdev))
      · rw [hne e₁] at hdev hk
        rw [hne e₂] at hk
        exact h.cache.unique b₁ b₂ hdev hk
    · by_cases e : b' = b
      · rw [e]
        exact iff_of_true ((congrArg Buf.busy hself).trans hbusy)
          ⟨p, (hholds ▸ mem_cons_self : b ∈ (s.take p b x).holds p)⟩
      · change ((s.take p b x).buf b').busy = true ↔ ∃ q, b' ∈ (s.take p b x).holds q
        rw [hne e, h.cache.busy b']
        exact exists_congr fun q => (hmem e).symm
    · by_cases e : b' = b
      · rw [e] at hq hr
        exact (hmemb hq).trans (hmemb hr).symm
      · exact h.cache.one q r b' ((hmem e).mp hq) ((hmem e).mp hr)
    · by_cases e : q = p
      · rw [e]
        exact hholds ▸ nodup_cons.mpr ⟨hfreeb p, h.cache.nodup p⟩
      · exact hholdsNe e ▸ h.cache.nodup q
    · change ((s.take p b x).buf b').valid = false → ((s.take p b x).buf b').dirty = false
      by_cases e : b' = b
      · rw [e, hself]
        exact hclean
      · rw [hne e]
        exact h.cache.clean b'
    · change ((s.take p b x).buf b').busy = true
      by_cases e : b' = b
      · rw [e, hself, hbusy]
      · rw [hne e]
        exact h.cache.changed b' hb'
    · change ((s.take p b x).buf b').dev ≠ NODEV → ((s.take p b x).buf b').valid = true → _ →
        ((s.take p b x).buf b').data = lastGiven disk s.given (key ((s.take p b x).buf b'))
      by_cases e : b' = b
      · rw [e, hself]
        exact fun h1 h2 _ => hfresh h1 h2
      · rw [hne e]
        exact h.cache.fresh b'
    · refine h.cache.synced y hy fun b' hb' => ?_
      have hallb : key ((s.take p b x).buf b') = y → ((s.take p b x).buf b').dirty = false := hall b'
      by_cases e : b' = b
      · rw [e] at hb' hallb ⊢
        rw [hself] at hallb
        rcases hold with hk | hd
        · rw [← hdirty]
          exact hallb (hk.trans hb')
        · exact hd
      · rw [hne e] at hallb
        exact hallb hb'
  · refine ⟨nofun, nofun, ?_, fun b' hb' => ?_, fun y b' hy => ?_, fun b' hb' hf => ?_,
      fun b' hb' => ?_, nofun, nofun⟩
    · exact nodup_cons.mpr ⟨fun hm => hfreeb p (hat.uses b (huses ▸ hm)), huses ▸ hat.nodup⟩
    · refine (hholds ▸ ?_ : b' ∈ (s.take p b x).holds p)
      rcases mem_cons.mp hb' with e | hm
      · exact e ▸ mem_cons_self
      · exact mem_cons_of_mem _ (hat.uses b' (huses ▸ hm))
    · cases hy
      exact (congrArg key hself).trans hkey
    · have e : b' ≠ b := fun e => hf (e ▸ rfl)
      change ((s.take p b x).buf b').valid = true
      rw [hne e]
      exact hat.valid b' ((hmem e).mp hb') (by rw [hfill]; nofun)
    · cases hb'
      change s.changed b = false
      by_contra hc
      have := h.cache.changed b ((Bool.not_eq_false _).mp hc)
      rw [hfree] at this
      cases this

/-- `brelse` moves the buffer to the front. -/
theorem relink (h : Inv disk s) {k : Caller n} (hp : s.pc p = .relink b k) :
    Inv disk ({ s with links := (s.links.remove (some b)).insert (some b) }.goto p
      (.clearBusy b k)) := by
  obtain ⟨h1, h2, h3, h4, h5, h6, h7, h8, h9⟩ := h.cache
  have hat := h.procs p
  rw [hp] at hat
  have hown : owns (s.pc p) = true := by rw [hp]; rfl
  refine h.goto rfl (iff_of_true ((h.lock p).mpr hown) rfl) (fun _ _ => Iff.rfl)
    ⟨?_, h2, h3, h4, h5, h6, h7, h8, h9⟩
    ⟨nofun, nofun, hat.nodup, hat.uses, nofun, hat.valid, hat.untouched, nofun, nofun⟩
    fun q hq => h.others (p := p) (fun _ _ => rfl) (fun _ _ _ _ => ⟨rfl, rfl⟩)
      (by rw [hown]; nofun) hq
  obtain ⟨l, hring, hall⟩ := h1
  obtain ⟨l₁, l₂, rfl⟩ := append_of_mem (hall b)
  have hnd : (l₁ ++ b :: l₂).Nodup := (nodup_cons.mp hring.nodup).2.of_map _
  have hb : b ∉ l₁ ++ l₂ := (nodup_cons.mp (perm_middle.nodup hnd)).1
  exact ⟨b :: (l₁ ++ l₂), Links.insert_ring (Links.remove_ring hring) hb,
    fun b' => perm_middle.mem_iff.mp (hall b')⟩

theorem clearBusy (h : Inv disk s) {k : Caller n} (hp : s.pc p = .clearBusy b k) :
    Inv disk ({ s.setBuf b { s.buf b with busy := false } with
      holds := Function.update s.holds p ((s.holds p).erase b) }.goto p (.wakeup b k)) := by
  have hat := h.procs p
  rw [hp] at hat
  have hown : owns (s.pc p) = true := by rw [hp]; rfl
  have hb : b ∈ s.holds p := hat.uses b mem_cons_self
  generalize ht : ({ s.setBuf b { s.buf b with busy := false } with
      holds := Function.update s.holds p ((s.holds p).erase b) } : State n α) = t
  have hself : t.buf b = { s.buf b with busy := false } := by
    rw [← ht]
    exact update_self ..
  have hne : ∀ {b'}, b' ≠ b → t.buf b' = s.buf b' := fun e => by
    rw [← ht]
    exact update_of_ne e ..
  have hholds : t.holds p = (s.holds p).erase b := by
    rw [← ht]
    exact update_self ..
  have hholdsNe : ∀ {q}, q ≠ p → t.holds q = s.holds q := fun e => by
    rw [← ht]
    exact update_of_ne e ..
  have hmem : ∀ {q b'}, b' ∈ t.holds q ↔ b' ∈ s.holds q ∧ b' ≠ b := by
    intro q b'
    by_cases hq : q = p
    · rw [hq, hholds, (h.cache.nodup p).mem_erase_iff, and_comm]
    · rw [hholdsNe hq]
      exact ⟨fun hm => ⟨hm, h.mem_ne hb hq hm⟩, And.left⟩
  have hkeys : ∀ b', key (t.buf b') = key (s.buf b') ∧ (t.buf b').valid = (s.buf b').valid ∧
      (t.buf b').dirty = (s.buf b').dirty ∧ (t.buf b').data = (s.buf b').data := fun b' => by
    by_cases e : b' = b
    · rw [e, hself]
      exact ⟨rfl, rfl, rfl, rfl⟩
    · rw [hne e]
      exact ⟨rfl, rfl, rfl, rfl⟩
  have hdevs : ∀ b', (t.buf b').dev = (s.buf b').dev := fun b' =>
    (Prod.ext_iff.mp (hkeys b').1).1
  have hch : t.changed = s.changed := by rw [← ht]; rfl
  have hlinks : t.links = s.links := by rw [← ht]; rfl
  have hgiven : t.given = s.given := by rw [← ht]; rfl
  have hdisk : t.disk = s.disk := by rw [← ht]; rfl
  have hlock : t.lock = s.lock := by rw [← ht]; rfl
  have hpc : t.pc = s.pc := by rw [← ht]; rfl
  have hcache : Cache disk t := by
    refine ⟨by rw [hlinks]; exact h.cache.ring, fun b₁ b₂ => ?_, fun b' => ?_, fun q r b' hq hr =>
      h.cache.one q r b' (hmem.mp hq).1 (hmem.mp hr).1, fun q => ?_, fun b' => ?_, fun b' hb' => ?_,
      fun b' => ?_, fun y hy hall => ?_⟩
    · rw [hdevs, (hkeys b₁).1, (hkeys b₂).1]
      exact h.cache.unique b₁ b₂
    · by_cases e : b' = b
      · rw [e, hself]
        exact iff_of_false nofun fun ⟨q, hq⟩ => (hmem.mp hq).2 rfl
      · rw [hne e, h.cache.busy b']
        exact exists_congr fun q => ⟨fun hm => hmem.mpr ⟨hm, e⟩, fun hm => (hmem.mp hm).1⟩
    · by_cases e : q = p
      · rw [e, hholds]
        exact (h.cache.nodup p).erase b
      · rw [hholdsNe e]
        exact h.cache.nodup q
    · rw [(hkeys b').2.1, (hkeys b').2.2.1]
      exact h.cache.clean b'
    · rw [hch] at hb'
      have e : b' ≠ b := by
        intro e
        rw [e, hat.untouched b rfl] at hb'
        cases hb'
      rw [hne e]
      exact h.cache.changed b' hb'
    · rw [hdevs, (hkeys b').1, (hkeys b').2.1, (hkeys b').2.2.2, hch, hgiven]
      exact h.cache.fresh b'
    · rw [hdisk, hgiven]
      refine h.cache.synced y hy fun b' hb' => ?_
      rw [← (hkeys b').2.2.1]
      exact hall b' (by rw [(hkeys b').1, hb'])
  have hatp : At t p (.wakeup b k) := by
    refine ⟨nofun, nofun, (nodup_cons.mp hat.nodup).2, fun b' hb' => hmem.mpr
      ⟨hat.uses b' (mem_cons_of_mem _ hb'), fun e =>
        (nodup_cons.mp hat.nodup).1 (e ▸ hb')⟩, nofun, fun b' hb' _ => ?_, nofun, nofun, nofun⟩
    rw [(hkeys b').2.1]
    exact hat.valid b' (hmem.mp hb').1 nofun
  obtain ⟨h1, h2, h3, h4, h5, h6, h7, h8, h9⟩ := hcache
  obtain ⟨a1, a2, a3, a4, a5, a6, a7, a8, a9⟩ := hatp
  refine h.goto (t := t.goto p (.wakeup b k)) (by rw [← hpc]; rfl)
    (iff_of_true (hlock.trans ((h.lock p).mpr hown)) rfl)
    (fun q _ => by rw [← hlock]; rfl) ⟨h1, h2, h3, h4, h5, h6, h7, h8, h9⟩
    ⟨a1, a2, a3, a4, a5, a6, a7, a8, a9⟩
    fun q hq => h.others (p := p) (fun _ hq => hholdsNe hq)
      (fun q b' hq hb' => ⟨hne (h.mem_ne hb hq hb'), congrFun hch b'⟩)
      (by rw [hown]; nofun) hq

theorem wakeup (h : Inv disk s) {k : Caller n} (hp : s.pc p = .wakeup b k) :
    Inv disk ({ s with pc := fun q => (s.pc q).wake b }.goto p (.leave k)) := by
  have hwoken : Inv disk { s with pc := fun q => (s.pc q).wake b } := by
    obtain ⟨h1, h2, h3, h4, h5, h6, h7, h8, h9⟩ := h.cache
    refine ⟨fun q => (h.lock q).trans (by rw [← owns_wake (s.pc q) b]),
      ⟨h1, h2, h3, h4, h5, h6, h7, h8, h9⟩, fun q => ?_⟩
    obtain ⟨a1, a2, a3, a4, a5, a6, a7, a8, a9⟩ := (h.procs q).wake b
    exact ⟨a1, a2, a3, a4, a5, a6, a7, a8, a9⟩
  have hat := h.procs p
  rw [hp] at hat
  refine hwoken.keep (g := s.log) (c := .leave k) ⟨nofun, nofun, hat.nodup, hat.uses, nofun, hat.valid,
    nofun, nofun, nofun⟩ ?_
  change owns ((s.pc p).wake b) = true
  rw [hp]
  rfl

end Inv

/-! ### The instructions -/

theorem iderw_read {size : Nat → Nat} {d d' : Nat × Nat → α} {x y : Buf α}
    (h : iderw size d x = .ok (d', y)) (hx : x.dirty = false) :
    d' = d ∧ y = { x with data := d (key x), valid := true } := by
  rw [iderw] at h
  split at h
  · cases h
  split at h
  · cases h
  split at h
  · cases h
  rw [if_neg (by rw [hx]; rintro ⟨⟩)] at h
  cases h
  exact ⟨rfl, rfl⟩

theorem iderw_write {size : Nat → Nat} {d d' : Nat × Nat → α} {x y : Buf α}
    (h : iderw size d x = .ok (d', y)) (hx : x.dirty = true) :
    d' = Function.update d (key x) x.data ∧ y = { x with valid := true, dirty := false } := by
  rw [iderw] at h
  split at h
  · cases h
  split at h
  · cases h
  split at h
  · cases h
  cases h
  exact ⟨rfl, rfl⟩

theorem lastGiven_self (x : Nat × Nat) (d : α) (given : List ((Nat × Nat) × α)) :
    lastGiven disk ((x, d) :: given) x = d := if_pos rfl

theorem lastGiven_of_ne {x y : Nat × Nat} (d : α) (given : List ((Nat × Nat) × α)) (h : y ≠ x) :
    lastGiven disk ((x, d) :: given) y = lastGiven disk given y := if_neg h.symm

namespace Inv

variable {size : Nat → Nat} {dev sector : Nat} {k : Caller n}

theorem searched_start (h : Inv disk s) (x : Nat × Nat) : Searched s x (s.links.next none) := by
  obtain ⟨l, hring, hall⟩ := h.cache.ring
  exact ⟨[], l, hring, hall, by rw [hring.next_head, head?_map_some], nofun⟩

theorem searched_next {x : Nat × Nat} (h : Searched s x (some b)) (hb : key (s.buf b) ≠ x) :
    Searched s x (s.links.next (some b)) := by
  obtain ⟨l, r, hring, hall, hhead, hl⟩ := h
  obtain ⟨r, rfl⟩ : ∃ r', r = b :: r' := by
    cases r with
    | nil => cases hhead
    | cons b' r =>
      cases hhead
      exact ⟨r, rfl⟩
  have hnext : s.links.next (some b) = r.head? := by
    rw [map_append, map_cons] at hring
    rw [hring.next_eq, head?_map_some]
  rw [append_cons] at hring hall
  refine ⟨l ++ [b], r, hring, hall, hnext, fun b' hb' => ?_⟩
  rcases mem_append.mp hb' with hm | hm
  · exact hl b' hm
  · rw [mem_singleton.mp hm]
    exact hb

theorem searched_end {x : Nat × Nat} (h : Searched s x none) (b : Fin n) : key (s.buf b) ≠ x := by
  obtain ⟨l, r, -, hall, hhead, hl⟩ := h
  have hr : r = [] := List.head?_eq_none_iff.mp hhead.symm
  have hb := hall b
  rw [hr, append_nil] at hb
  exact hl b hb

theorem unchanged_of_free (h : Inv disk s) (hfree : (s.buf b).busy = false) :
    s.changed b = false := by
  by_contra hc
  have := h.cache.changed b ((Bool.not_eq_false _).mp hc)
  rw [hfree] at this
  cases this

theorem hit (h : Inv disk s) (hp : s.pc p = .find dev sector (some b) k)
    (hkey : key (s.buf b) = (dev, sector)) (hfree : (s.buf b).busy = false) :
    Inv disk ((s.take p b { s.buf b with busy := true }).goto p (.got dev sector b k)) :=
  h.take (by rw [hp]; rfl) hfree (by rw [hp]; rfl) (by rw [hp]; rfl) hkey rfl (h.cache.clean b) rfl
    (fun b' hb' hdev hk => hb' (h.cache.unique b b' hdev hk.symm).symm)
    (fun hdev hv => h.cache.fresh b hdev hv (h.unchanged_of_free hfree)) (Or.inl rfl)

theorem evict (h : Inv disk s) (hp : s.pc p = .recycle dev sector (some b) k)
    (hfree : (s.buf b).busy = false) (hclean : (s.buf b).dirty = false) :
    Inv disk ((s.take p b { s.buf b with
      dev := dev, sector := sector, busy := true, valid := false, dirty := false }).goto p
        (.got dev sector b k)) := by
  have hat := h.procs p
  rw [hp] at hat
  exact h.take (by rw [hp]; rfl) hfree (by rw [hp]; rfl) (by rw [hp]; rfl) rfl rfl (fun _ => rfl)
    hclean.symm (fun b' _ _ => hat.absent _ _ _ _ rfl b') nofun (Or.inr hclean)

theorem read (h : Inv disk s) (hp : s.pc p = .reading dev sector b k) {d : Nat × Nat → α} {x : Buf α}
    (hio : iderw size s.disk (s.buf b) = .ok (d, x)) :
    Inv disk (({ s with disk := d }.setBuf b x).goto p (.ret dev sector b k)) := by
  have hat := h.procs p
  rw [hp] at hat
  have hb : b ∈ s.holds p := hat.uses b mem_cons_self
  have hclean := h.cache.clean b (hat.reading _ _ _ _ rfl)
  obtain ⟨rfl, rfl⟩ := iderw_read hio hclean
  -- no other buffer has the sector, so that the disk has what was given last
  have hsync : (s.buf b).dev ≠ NODEV →
      s.disk (key (s.buf b)) = lastGiven disk s.given (key (s.buf b)) := fun hdev =>
    h.cache.synced _ hdev fun b' hb' => h.cache.unique b b' hdev hb'.symm ▸ hclean
  refine h.update (v := s.changed b) hb rfl rfl (by rw [hp]; rfl) rfl rfl rfl
    (update_eq_self b s.changed).symm rfl ((h.cache.busy b).mpr ⟨p, hb⟩) nofun
    (fun _ _ => rfl) (fun _ _ => rfl) (fun hdev _ _ => hsync hdev) (fun hdev _ => hsync hdev)
    ⟨nofun, nofun, hat.nodup, hat.uses, fun y b' hy => ?_, fun b' hb' _ => ?_, hat.untouched, nofun,
      nofun⟩
  · cases hy
    change key (Function.update s.buf b _ b) = _
    rw [update_self]
    exact hat.answer _ _ rfl
  · change (Function.update s.buf b _ b').valid = true
    by_cases e : b' = b
    · rw [e, update_self]
    · rw [update_of_ne e]
      exact hat.valid b' hb' fun hf => e (Option.some.inj hf).symm

/-- What a process at `c` needs, after a change of its buffer `b` that leaves it valid. -/
theorem at_setBuf (hat : At s p (s.pc p)) {x : Buf α} (hbuf : t.buf = Function.update s.buf b x)
    (hholds : t.holds = s.holds) (hfill : filling (s.pc p) = none) (hvalid : x.valid = true)
    (hnodup : (uses c).Nodup) (huses : ∀ b ∈ uses c, b ∈ uses (s.pc p)) (hans : answer c = none)
    (hfind : owns c = false) (hunt : ∀ b, untouched c = some b → t.changed b = false)
    (hwrite : ∀ b k, c = .writing b k → (t.buf b).dirty = true) : At t p c := by
  refine ⟨fun _ _ _ _ hc => ?_, fun _ _ _ _ hc => ?_, hnodup, fun b' hb' => ?_, fun _ _ hc => ?_,
    fun b' hb' _ => ?_, hunt, fun _ _ _ _ hc => ?_, hwrite⟩
  · rw [hc] at hfind
    cases hfind
  · rw [hc] at hfind
    cases hfind
  · rw [hholds]
    exact hat.uses b' (huses b' hb')
  · rw [hans] at hc
    cases hc
  · rw [hbuf]
    by_cases e : b' = b
    · rw [e, update_self]
      exact hvalid
    · rw [update_of_ne e]
      exact hat.valid b' (hholds ▸ hb') (by rw [hfill]; nofun)
  · rw [hc] at hans
    cases hans

theorem mark (h : Inv disk s) (hp : s.pc p = .bwrite b k) :
    Inv disk ((s.setBuf b { s.buf b with dirty := true }).goto p (.writing b k)) := by
  have hat := h.procs p
  have hb : b ∈ s.holds p := hat.uses b (by rw [hp]; exact mem_cons_self)
  have hvalid : (s.buf b).valid = true := hat.valid b hb (by rw [hp]; nofun)
  refine h.update (v := s.changed b) hb rfl rfl (by rw [hp]; rfl) rfl rfl rfl
    (update_eq_self b s.changed).symm rfl ((h.cache.busy b).mpr ⟨p, hb⟩)
    (fun hv => absurd (hvalid.symm.trans hv) nofun) (fun _ _ => rfl) (fun _ _ => rfl)
    (fun hdev hv hc => h.cache.fresh b hdev hv hc) nofun
    (at_setBuf hat rfl rfl (by rw [hp]; rfl) hvalid (by have := hat.nodup; rwa [hp] at this)
      (by rw [hp]; exact fun _ hm => hm) rfl rfl nofun fun b' k' hc => ?_)
  cases hc
  change (Function.update s.buf b _ b).dirty = true
  rw [update_self]

theorem written (h : Inv disk s) (hp : s.pc p = .writing b k) {d : Nat × Nat → α} {x : Buf α}
    (hio : iderw size s.disk (s.buf b) = .ok (d, x)) (hc : c = match k with
      | .user => .user
      | .logWrite b' i => .brelse b (.logWrite b' i)) :
    Inv disk (({ s.give b with disk := d }.setBuf b x).goto p c) := by
  have hat := h.procs p
  have hb : b ∈ s.holds p := hat.uses b (by rw [hp]; exact mem_cons_self)
  obtain ⟨rfl, rfl⟩ := iderw_write hio (hat.writing b k hp)
  have hown : owns c = false := by subst hc; cases k <;> rfl
  refine h.update (v := false) hb rfl rfl (by rw [hp, hown]; rfl) rfl rfl rfl rfl rfl
    ((h.cache.busy b).mpr ⟨p, hb⟩) nofun (fun y hy => update_of_ne hy ..)
    (fun y hy => lastGiven_of_ne _ _ hy) (fun _ _ _ => (lastGiven_self ..).symm)
    (fun _ _ => (update_self ..).trans (lastGiven_self ..).symm)
    (at_setBuf hat rfl rfl (by rw [hp]; rfl) rfl ?_ ?_ ?_ hown ?_ ?_)
  · have := hat.nodup
    rw [hp] at this
    subst hc
    cases k with
    | user => exact nodup_nil
    | logWrite b' i => exact this
  · rw [hp]
    subst hc
    cases k with
    | user => nofun
    | logWrite b' i => exact fun _ hm => hm
  · subst hc
    cases k <;> rfl
  · intro b' hb'
    subst hc
    cases k with
    | user => cases hb'
    | logWrite b'' i =>
      cases hb'
      exact update_self ..
  · subst hc
    cases k <;> nofun

theorem write (h : Inv disk s) (hb : b ∈ s.holds p) (d : α) (hfill : filling (s.pc p) = none)
    (ho : owns (s.pc p) = false) (hown : owns c = false) (hnodup : (uses c).Nodup)
    (huses : ∀ b ∈ uses c, b ∈ uses (s.pc p)) (hans : answer c = none) (hunt : untouched c = none)
    (hwrite : ∀ b k, c ≠ .writing b k) : Inv disk ((s.write b d).goto p c) := by
  have hat := h.procs p
  have hvalid : (s.buf b).valid = true := hat.valid b hb (by rw [hfill]; nofun)
  exact h.update (v := true) hb rfl rfl (by rw [ho, hown]) rfl rfl rfl rfl rfl
    ((h.cache.busy b).mpr ⟨p, hb⟩) (fun hv => absurd (hvalid.symm.trans hv) nofun) (fun _ _ => rfl)
    (fun _ _ => rfl) nofun (fun hdev hd => h.cache.synced _ hdev fun b' hb' =>
      h.cache.unique b b' hdev hb'.symm ▸ hd)
    (at_setBuf hat rfl rfl hfill hvalid hnodup huses hans hown (by rw [hunt]; nofun)
      fun b' k hc => absurd hc (hwrite b' k))

theorem logged (h : Inv disk s) (hp : s.pc p = .logDirty b) :
    Inv disk (((s.give b).setBuf b { s.buf b with dirty := true }).goto p .user) := by
  have hat := h.procs p
  have hb : b ∈ s.holds p := hat.uses b (by rw [hp]; exact mem_cons_self)
  have hvalid : (s.buf b).valid = true := hat.valid b hb (by rw [hp]; nofun)
  exact h.update (v := false) hb rfl rfl (by rw [hp]; rfl) rfl rfl rfl rfl rfl
    ((h.cache.busy b).mpr ⟨p, hb⟩) (fun hv => absurd (hvalid.symm.trans hv) nofun) (fun _ _ => rfl)
    (fun y hy => lastGiven_of_ne _ _ hy) (fun _ _ _ => (lastGiven_self ..).symm) nofun
    (at_setBuf hat rfl rfl (by rw [hp]; rfl) hvalid nodup_nil nofun rfl rfl nofun nofun)

theorem exec (h : Inv disk s) (he : Bio.exec size s p = .next t) : Inv disk t := by
  have hat := h.procs p
  rw [Bio.exec] at he
  split at he
  · cases he
  · next dev sector k hp =>
    rw [hp] at hat
    split at he
    · next hfree =>
      cases he
      refine h.acquire hfree ⟨fun _ _ _ _ hc => ?_, nofun, hat.nodup, hat.uses, nofun, hat.valid, nofun,
        nofun, nofun⟩ rfl
      cases hc
      exact h.searched_start _
    · cases he
  · next dev sector b k hp =>
    rw [hp] at hat
    have hown : owns (s.pc p) = true := by rw [hp]; rfl
    split at he
    · next hkey =>
      split at he
      · cases he
        exact h.release hown ⟨nofun, nofun, hat.nodup, hat.uses, nofun, hat.valid, nofun, nofun, nofun⟩
          rfl
      · next hfree =>
        cases he
        exact h.hit hp hkey (Bool.eq_false_iff.mpr hfree)
    · next hkey =>
      cases he
      refine h.keep (g := s.log) ⟨fun _ _ _ _ hc => ?_, nofun, hat.nodup, hat.uses, nofun, hat.valid,
        nofun, nofun, nofun⟩ hown
      cases hc
      exact searched_next (hat.find _ _ _ _ rfl) hkey
  · next dev sector k hp =>
    rw [hp] at hat
    cases he
    refine h.keep (g := s.log) ⟨nofun, fun _ _ _ _ hc => ?_, hat.nodup, hat.uses, nofun, hat.valid,
      nofun, nofun, nofun⟩ (by rw [hp]; rfl)
    cases hc
    exact searched_end (hat.find _ _ _ _ rfl)
  · cases he
  · next dev sector b k hp =>
    split at he
    · next hfree =>
      cases he
      exact h.evict hp hfree.1 hfree.2
    · cases he
      rw [hp] at hat
      refine h.keep (g := s.log) ⟨nofun, fun _ _ _ _ hc => ?_, hat.nodup, hat.uses, nofun, hat.valid,
        nofun, nofun, nofun⟩ (by rw [hp]; rfl)
      cases hc
      exact hat.absent _ _ _ _ rfl
  · cases he
  · next dev sector b k hp =>
    rw [hp] at hat
    cases he
    exact h.release (by rw [hp]; rfl) ⟨nofun, nofun, hat.nodup, hat.uses, hat.answer, hat.valid,
      hat.untouched, nofun, nofun⟩ rfl
  · next dev sector b k hp =>
    rw [hp] at hat
    split at he
    · next hvalid =>
      cases he
      refine h.keep (g := s.log) ⟨nofun, nofun, hat.nodup, hat.uses, hat.answer, fun b' hb' _ => ?_,
        hat.untouched, nofun, nofun⟩ (by rw [hp]; rfl)
      by_cases e : b' = b
      · rw [e]
        exact hvalid
      · exact hat.valid b' hb' fun hf => e (Option.some.inj hf).symm
    · next hinvalid =>
      cases he
      refine h.keep (g := s.log) ⟨nofun, nofun, hat.nodup, hat.uses, hat.answer, hat.valid,
        hat.untouched, fun _ _ _ _ hc => ?_, nofun⟩ (by rw [hp]; rfl)
      cases hc
      exact Bool.eq_false_iff.mpr hinvalid
  · next dev sector b k hp =>
    split at he
    · cases he
    · next d x hio =>
      cases he
      exact h.read hp hio
  · next hp =>
    rw [hp] at hat
    cases he
    exact h.keep (g := s.log) ⟨nofun, nofun, nodup_nil, nofun, nofun, hat.valid, nofun, nofun,
      nofun⟩ (by rw [hp]; rfl)
  · next hp =>
    rw [hp] at hat
    cases he
    exact h.keep (g := s.log) ⟨nofun, nofun, hat.nodup, hat.uses, nofun, hat.valid, nofun, nofun, nofun⟩
      (by rw [hp]; rfl)
  · next b k hp =>
    split at he
    · cases he
    · cases he
      exact h.mark hp
  · next b k hp =>
    split at he
    · cases he
    · next d x hio =>
      cases k <;> (cases he; exact h.written hp hio rfl)
  · next b k hp =>
    rw [hp] at hat
    split at he
    · cases he
    · split at he
      · next hfree =>
        cases he
        exact h.acquire hfree ⟨nofun, nofun, hat.nodup, hat.uses, nofun, hat.valid, hat.untouched, nofun,
          nofun⟩ rfl
      · cases he
  · next b k hp =>
    cases he
    exact h.relink hp
  · next b k hp =>
    cases he
    exact h.clearBusy hp
  · next b k hp =>
    cases he
    exact h.wakeup hp
  · next k hp =>
    rw [hp] at hat
    cases he
    have hown : owns (s.pc p) = true := by rw [hp]; rfl
    cases k with
    | user =>
      exact h.release hown ⟨nofun, nofun, nodup_nil, nofun, nofun, hat.valid, nofun, nofun, nofun⟩ rfl
    | logWrite b i =>
      exact h.release hown ⟨nofun, nofun, hat.nodup, hat.uses, nofun, hat.valid, nofun, nofun, nofun⟩ rfl
  · next b hp =>
    rw [hp] at hat
    split at he
    · cases he
    · split at he
      · cases he
      · cases he
        exact h.keep (g := s.log) ⟨nofun, nofun, hat.nodup, hat.uses, nofun, hat.valid, nofun, nofun,
          nofun⟩ (by rw [hp]; rfl)
  · next b i hp =>
    rw [hp] at hat
    split at he
    · cases he
      exact h.keep (g := s.log) ⟨nofun, nofun, hat.nodup, hat.uses, nofun, hat.valid, nofun, nofun,
        nofun⟩ (by rw [hp]; rfl)
    · cases he
      exact h.keep ⟨nofun, nofun, hat.nodup, hat.uses, nofun, hat.valid, nofun, nofun, nofun⟩
        (by rw [hp]; rfl)
  · next b i lbuf hp =>
    cases he
    have hnodup := hat.nodup
    rw [hp] at hnodup
    exact h.write (hat.uses lbuf (by rw [hp]; exact mem_cons_self)) _ (by rw [hp]; rfl)
      (by rw [hp]; rfl) rfl hnodup (by rw [hp]; exact fun _ hm => hm) rfl rfl nofun
  · next b i hp =>
    rw [hp] at hat
    cases he
    exact h.keep ⟨nofun, nofun, hat.nodup, hat.uses, nofun, hat.valid, nofun, nofun, nofun⟩
      (by rw [hp]; rfl)
  · next b hp =>
    cases he
    exact h.logged hp

theorem step (h : Inv disk s) {a : Act n α} (he : Bio.step size s a = some t) : Inv disk t := by
  cases a with
  | bread p dev sector =>
    simp only [Bio.step] at he
    split at he
    · next hp =>
      cases he
      have hat := h.procs p
      rw [hp] at hat
      exact h.keep (g := s.log) ⟨nofun, nofun, nodup_nil, nofun, nofun, hat.valid, nofun, nofun,
        nofun⟩ (by rw [hp]; rfl)
    · cases he
  | modify p b d =>
    simp only [Bio.step] at he
    split at he
    · next hp =>
      cases he
      have hsame : (s.write b d).goto p .user = s.write b d := by
        rw [State.goto, show (s.write b d).pc = s.pc from rfl, ← hp.1, update_eq_self]
        rfl
      rw [← hsame]
      exact h.write hp.2 d (by rw [hp.1]; rfl) (by rw [hp.1]; rfl) rfl nodup_nil nofun rfl rfl
        nofun
    · cases he
  | bwrite p b =>
    simp only [Bio.step] at he
    split at he
    · next hp =>
      cases he
      have hat := h.procs p
      rw [hp.1] at hat
      exact h.keep (g := s.log) ⟨nofun, nofun, nodup_singleton b,
        fun b' hb' => mem_singleton.mp hb' ▸ hp.2, nofun, hat.valid, nofun, nofun, nofun⟩
        (by rw [hp.1]; rfl)
    · cases he
  | logWrite p b =>
    simp only [Bio.step] at he
    split at he
    · next hp =>
      cases he
      have hat := h.procs p
      rw [hp.1] at hat
      exact h.keep (g := s.log) ⟨nofun, nofun, nodup_singleton b,
        fun b' hb' => mem_singleton.mp hb' ▸ hp.2, nofun, hat.valid, nofun, nofun, nofun⟩
        (by rw [hp.1]; rfl)
    · cases he
  | brelse p b =>
    simp only [Bio.step] at he
    split at he
    · next hp =>
      cases he
      have hat := h.procs p
      rw [hp.1] at hat
      refine h.keep (g := s.log) ⟨nofun, nofun, nodup_singleton b,
        fun b' hb' => mem_singleton.mp hb' ▸ hp.2.1, nofun, hat.valid, fun b' hb' => ?_, nofun, nofun⟩
        (by rw [hp.1]; rfl)
      cases hb'
      exact hp.2.2
    · cases he
  | exec p =>
    simp only [Bio.step] at he
    split at he
    · next t' ht =>
      cases he
      exact h.exec ht
    · cases he
  | wake p =>
    simp only [Bio.step] at he
    split at he
    · next hp =>
      cases he
      have hat := h.procs p
      rw [hp] at hat
      exact h.keep (g := s.log) ⟨nofun, nofun, hat.nodup, hat.uses, nofun, hat.valid, nofun, nofun,
        nofun⟩ (by rw [hp]; rfl)
    · cases he
  | log l =>
    cases he
    obtain ⟨h1, h2, h3, h4, h5, h6, h7, h8, h9⟩ := h.cache
    refine ⟨h.lock, ⟨h1, h2, h3, h4, h5, h6, h7, h8, h9⟩, fun q => ?_⟩
    obtain ⟨a1, a2, a3, a4, a5, a6, a7, a8, a9⟩ := h.procs q
    exact ⟨a1, a2, a3, a4, a5, a6, a7, a8, a9⟩

end Inv

theorem inv_run {size : Nat → Nat} {acts : List (Act n α)} (h : Inv disk s)
    (hrun : runActs size acts s = some t) : Inv disk t := by
  induction acts generalizing s with
  | nil =>
    cases hrun
    exact h
  | cons a acts ih =>
    obtain ⟨s₁, h1, h2⟩ := Option.bind_eq_some_iff.mp hrun
    exact ih (h.step h1) h2

end Steps

/-! ### The cache is coherent -/

section Results

variable {disk : Nat × Nat → α} {s t : State n α} {p : Nat} {b : Fin n} {size : Nat → Nat}

theorem iderw_key {d d' : Nat × Nat → α} {x y : Buf α} (h : iderw size d x = .ok (d', y)) :
    key y = key x := by
  cases hx : x.dirty with
  | false => rw [(iderw_read h hx).2]; rfl
  | true => rw [(iderw_write h hx).2]; rfl

theorem key_update {buf : Fin n → Buf α} {c : Fin n} {x : Buf α} (h : key x = key (buf c))
    (b : Fin n) : key (Function.update buf c x b) = key (buf b) := by
  by_cases e : b = c
  · rw [e, update_self, h]
  · rw [update_of_ne e]

/-- Only `bget` gives a buffer another sector, and it takes a free and clean one. -/
theorem exec_key (he : exec size s p = .next t) (hk : key (t.buf b) ≠ key (s.buf b)) :
    (s.buf b).busy = false ∧ (s.buf b).dirty = false := by
  rw [exec] at he
  split at he
  case h_6 dev sector c k hp =>
    split at he
    · next hfree =>
      cases he
      by_cases e : b = c
      · rw [e]
        exact hfree
      · exact absurd (congrArg key (update_of_ne e _ s.buf)) hk
    · cases he
      exact absurd rfl hk
  all_goals
    (repeat' split at he) <;> first
      | cases he
        done
      | cases he
        exact absurd rfl hk
      | cases he
        exact absurd (key_update (by rfl) b) hk
      | cases he
        exact absurd (key_update (iderw_key (by assumption)) b) hk

theorem step_key {a : Act n α} (he : step size s a = some t) (hk : key (t.buf b) ≠ key (s.buf b)) :
    (s.buf b).busy = false ∧ (s.buf b).dirty = false := by
  cases a with
  | exec p =>
    simp only [step] at he
    split at he
    · next t' ht =>
      cases he
      exact exec_key ht hk
    · cases he
  | modify p c d =>
    simp only [step] at he
    split at he
    · cases he
      exact absurd (key_update (by rfl) b) hk
    · cases he
  | log l =>
    cases he
    exact absurd rfl hk
  | _ =>
    simp only [step] at he
    split at he
    · cases he
      exact absurd rfl hk
    · cases he

/-- **The buffer cache is coherent.** In every state that any interleaving of `bread`, `bwrite`,
`log_write` and `brelse` leads to, the links form one ring through the head with every buffer once;
no two buffers are for the same sector of a real device; a busy buffer belongs to exactly one
process; the next step gives another sector to free and clean buffers only; and `bread` returns a
buffer for the sector that was asked for, with the contents that `bwrite` or `log_write` gave to
that sector last. -/
theorem buffer_cache_coherent (size : Nat → Nat) (disk : Nat × Nat → α) (data : Fin n → α) (log : Log)
    (acts : List (Act n α)) (s : State n α) (hrun : runActs size acts (init disk data log) = some s) :
    (∃ l : List (Fin n), Ring s.links.next s.links.prev none (l.map some) ∧ l.Nodup ∧ ∀ b, b ∈ l) ∧
      (∀ b c, (s.buf b).dev ≠ NODEV → key (s.buf b) = key (s.buf c) → b = c) ∧
      (∀ b, (s.buf b).busy = true ↔ ∃! p, b ∈ s.holds p) ∧
      (∀ a t, step size s a = some t → ∀ b, key (t.buf b) ≠ key (s.buf b) →
        (s.buf b).busy = false ∧ (s.buf b).dirty = false) ∧
      ∀ p dev sector b k, s.pc p = .ret dev sector b k → b ∈ s.holds p ∧
        key (s.buf b) = (dev, sector) ∧ (s.buf b).valid = true ∧
        (dev ≠ NODEV → (s.buf b).data = lastGiven disk s.given (dev, sector)) := by
  have h := inv_run (inv_init disk data log) hrun
  refine ⟨?_, h.cache.unique, fun b => ?_, fun a t ht b hk => step_key ht hk,
    fun p dev sector b k hp => ?_⟩
  · obtain ⟨l, hring, hall⟩ := h.cache.ring
    exact ⟨l, hring, (nodup_cons.mp hring.nodup).2.of_map _, hall⟩
  · rw [h.cache.busy b]
    exact ⟨fun ⟨p, hp⟩ => ⟨p, hp, fun q hq => h.cache.one q p b hq hp⟩, fun ⟨p, hp, _⟩ => ⟨p, hp⟩⟩
  · have hat := h.procs p
    rw [hp] at hat
    have hb : b ∈ s.holds p := hat.uses b mem_cons_self
    have hkey : key (s.buf b) = (dev, sector) := hat.answer _ _ rfl
    have hvalid : (s.buf b).valid = true := hat.valid b hb nofun
    refine ⟨hb, hkey, hvalid, fun hdev => ?_⟩
    have hdev' : (s.buf b).dev = dev := (Prod.ext_iff.mp hkey).1
    have hfresh := h.cache.fresh b (by rw [hdev']; exact hdev) hvalid (hat.untouched b rfl)
    rwa [hkey] at hfresh

/-- A process logs a change of sector 3 of disk 1, and another one reads the sector. -/
def logThenRead : List (Act 3 Nat) :=
  List.flatten [[.bread 0 1 3], List.replicate 10 (.exec 0), [.modify 0 0 7, .logWrite 0 0],
    List.replicate 23 (.exec 0), [.brelse 0 0, .bread 1 1 3], List.replicate 5 (.exec 0),
    List.replicate 4 (.exec 1)]

theorem buffer_cache_coherent_logThenRead :
    ∃ s, runActs (fun _ => 100) logThenRead
        (init (fun _ => 0) (fun _ => 0) ⟨20, 10, true, 0, fun _ => 0⟩) = some s ∧
      s.pc 1 = .ret 1 3 0 .user ∧ (s.buf 0).data = 7 ∧ (s.buf 0).dirty = true ∧
      lastGiven (fun _ => 0) s.given (1, 3) = 7 := by
  have hrun : (runActs (fun _ => 100) logThenRead
      (init (fun _ => 0) (fun _ => 0) ⟨20, 10, true, 0, fun _ => 0⟩)).map
      (fun s => (s.pc 1, (s.buf 0).data, (s.buf 0).dirty)) =
      some (.ret 1 3 0 .user, 7, true) := by decide +kernel
  obtain ⟨s, hs, h⟩ := Option.map_eq_some_iff.mp hrun
  obtain ⟨hpc, h⟩ := Prod.ext_iff.mp h
  obtain ⟨hdata, hdirty⟩ := Prod.ext_iff.mp h
  obtain ⟨-, -, -, -, hret⟩ := buffer_cache_coherent _ _ _ _ _ s hs
  exact ⟨s, hs, hpc, hdata, hdirty, ((hret 1 1 3 0 .user hpc).2.2.2 (by decide)).symm.trans hdata⟩

end Results

end Bio

end Xv6
