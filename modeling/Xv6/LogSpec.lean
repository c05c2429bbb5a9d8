import Xv6.Log

/-!
# What the log functions do to the machine

Each function of `log.c` is an explicit transformation of the machine, as long as no
buffer it needs is locked: `afterLogWrite`, `afterHead`, `afterInstall`. The specifications
below say that the programs compute these transformations, and what they do to the set of
locked buffers and to the resources in use.
-/

open Bytes Device Function

namespace Xv6

variable {J : Policy Event} {s : KState}

/-! ### The transformations -/

/-- The machine after `log_write` of `sec`. -/
def afterLogWrite (s : KState) (sec : Nat) (data : Block) : KState :=
  let l := s.mem.log
  let slot := l.start + l.slot sec + 1
  { s with
    disk := update s.disk slot data
    buf := update (update s.buf sec data) slot data
    dirty := insert sec (s.dirty.erase slot)
    writes := (slot, data) :: s.writes
    events := .logWrite s.mem.proc l.owner :: s.events
    passed := s.passed || !decide (l.lh.length < LOGSIZE ∧ l.lh.length < l.size - 1) ||
      decide (NBUF < s.need slot)
    mem := { s.mem with log := { l with lh := l.record sec } } }

/-- The machine after `write_head`. -/
def afterHead (s : KState) : KState :=
  let l := s.mem.log
  let hd := putHeader (s.buf l.start) l.lh
  { s with
    disk := update s.disk l.start hd
    buf := update s.buf l.start hd
    dirty := s.dirty.erase l.start
    writes := (l.start, hd) :: s.writes
    passed := s.passed || decide (NBUF < s.need l.start) }

/-- The machine after one round of `install_trans`. -/
def afterCopy (s : KState) (slot sec : Nat) : KState :=
  { s with
    disk := update s.disk sec (s.buf slot)
    buf := update s.buf sec (s.buf slot)
    dirty := s.dirty.erase sec
    writes := (sec, s.buf slot) :: s.writes
    passed := s.passed || decide (NBUF < s.need slot) ||
      decide (NBUF < (s.lock limits slot).need sec) }

/-- The machine after the loop of `install_trans`. -/
def afterInstall (start : Nat) : Nat → List Nat → KState → KState
  | _, [], s => s
  | tail, sec :: rest, s => afterInstall start (tail + 1) rest (afterCopy s (start + tail + 1) sec)

/-- The machine with another log header in memory. -/
def setLh (s : KState) (lh : List Nat) : KState :=
  { s with mem := { s.mem with log := { s.mem.log with lh := lh } } }

/-! ### The functions perform them -/

theorem kwp_logWrite {sec : Nat} {data : Block} {Q : Unit → KState → Prop}
    (hs : s.mem.log.start + s.mem.log.slot sec + 1 ∉ s.busy)
    (hbusy : s.mem.log.busy = false → J.stop (.panic "write outside of trans"))
    (hck : J.check (.logWrite s.mem.proc s.mem.log.owner))
    (h : s.mem.log.busy = true → Q () (afterLogWrite s sec data)) :
    kwp J (logWrite sec data) Q s := by
  unfold logWrite
  refine wp_bind (wp_store (wp_bind (wp_limit (wp_bind (wp_get ?_)))))
  cases hb : s.mem.log.busy with
  | false => exact wp_bind (wp_halt (hbusy hb))
  | true =>
    refine wp_bind (wp_emit fun _ => ⟨hck, ?_⟩)
    refine wp_bind (wp_bread hs (wp_bind (wp_store (wp_bind (wp_bwrite ?_ (wp_bind
      (wp_brelse ?_ (wp_bind (wp_modify (wp_pin ?_))))))))))
    · exact Finset.mem_insert_self _ _
    · exact Finset.mem_insert_self _ _
    · have hQ := h hb
      simp only [Machine.lock, Finset.erase_insert hs, update_self, limits,
        Machine.need] at hQ ⊢
      exact hQ

theorem kwp_writeHead {Q : Unit → KState → Prop} (hs : s.mem.log.start ∉ s.busy)
    (h : Q () (afterHead s)) : kwp J writeHead Q s := by
  unfold writeHead
  refine wp_bind (wp_get (wp_bind (wp_bread hs (wp_bind (wp_store (wp_bind (wp_bwrite ?_
    (wp_brelse ?_ ?_))))))))
  · exact Finset.mem_insert_self _ _
  · exact Finset.mem_insert_self _ _
  · simp only [Machine.lock, Finset.erase_insert hs, update_self, limits,
      Machine.need] at h ⊢
    exact h

theorem kwp_installLoop {start : Nat} {rest : List Nat} {Q : Unit → KState → Prop} :
    ∀ {tail : Nat} {s : KState}, (∀ i < rest.length, start + (tail + i) + 1 ∉ s.busy) →
      (∀ x ∈ rest, x ∉ s.busy ∧ x ≤ start) →
      Q () (afterInstall start tail rest s) → kwp J (installLoop start tail rest) Q s := by
  induction rest with
  | nil => intro tail s _ _ h; exact wp_pure h
  | cons sec rest ih =>
    intro tail s hslot hhome h
    have hsl : start + tail + 1 ∉ s.busy := hslot 0 (by simp)
    obtain ⟨hsec, hlt⟩ := hhome sec List.mem_cons_self
    have hne : sec ≠ start + tail + 1 := by omega
    have hsec' : sec ∉ (s.lock limits (start + tail + 1)).busy := by
      simp [Machine.lock, hne, hsec]
    have hbusy : ((insert sec (insert (start + tail + 1) s.busy)).erase (start + tail + 1)).erase sec
        = s.busy := by
      rw [Finset.insert_comm, Finset.erase_insert (by simp [hne.symm, hsl]),
        Finset.erase_insert hsec]
    unfold installLoop
    refine wp_bind (wp_bread hsl (wp_bind (wp_bread hsec' (wp_bind (wp_store (wp_bind
      (wp_bwrite ?_ (wp_bind (wp_brelse ?_ (wp_bind (wp_brelse ?_ ?_))))))))))) 
    · simp [Machine.lock]
    · simp [Machine.lock]
    · simp [Machine.lock, hne]
    · simp only [Machine.lock, hbusy, update_self]
      refine ih (s := afterCopy s (start + tail + 1) sec) ?_ ?_ h
      · intro i hi
        have := hslot (i + 1) (by simp only [List.length_cons]; omega)
        rwa [show tail + (i + 1) = tail + 1 + i by omega] at this
      · exact fun x hx => hhome x (List.mem_cons_of_mem _ hx)

theorem kwp_readsb {Q : Superblock → KState → Prop} (hs : 1 ∉ s.busy)
    (h : Q (getSuperblock (s.buf 1)) { s with passed := s.passed || decide (NBUF < s.need 1) }) :
    kwp J readsb Q s := by
  unfold readsb
  refine wp_bind (wp_bread hs (wp_bind (wp_brelse (Finset.mem_insert_self _ _) (wp_pure ?_))))
  simp only [Machine.lock, Finset.erase_insert hs, limits]
  exact h

theorem kwp_readHead {Q : Unit → KState → Prop} (hs : s.mem.log.start ∉ s.busy)
    (h : Q () { setLh s (getHeader (s.buf s.mem.log.start)) with
      passed := s.passed || decide (NBUF < s.need s.mem.log.start) }) :
    kwp J readHead Q s := by
  unfold readHead
  refine wp_bind (wp_get (wp_bind (wp_bread hs (wp_bind (wp_modify
    (wp_brelse (Finset.mem_insert_self _ _) ?_))))))
  simp only [Machine.lock, Finset.erase_insert hs, limits]
  exact h

/-! ### The header as a list -/

section Record

variable (l : LogState) (sec : Nat)

theorem record_slot_lt : l.slot sec < (l.record sec).length := by
  unfold LogState.slot LogState.record recordSector
  by_cases h : sec ∈ l.lh
  · rw [if_pos h]; exact List.idxOf_lt_length_of_mem h
  · rw [if_neg h, List.idxOf_eq_length h]; simp

theorem record_getElem_slot (h : l.slot sec < (l.record sec).length) :
    (l.record sec)[l.slot sec] = sec := by
  unfold LogState.slot LogState.record recordSector at *
  by_cases hm : sec ∈ l.lh
  · simp only [if_pos hm]; exact List.getElem_idxOf _
  · simp only [if_neg hm, List.idxOf_eq_length hm]; simp

theorem record_getElem_of_ne {i : Nat} (h : i < (l.record sec).length) (hne : i ≠ l.slot sec) :
    ∃ h' : i < l.lh.length, (l.record sec)[i] = l.lh[i] := by
  unfold LogState.slot LogState.record recordSector at *
  by_cases hm : sec ∈ l.lh
  · simp only [if_pos hm] at h ⊢; exact ⟨h, trivial⟩
  · simp only [if_neg hm, List.idxOf_eq_length hm, List.length_append, List.length_singleton]
      at h hne ⊢
    have h' : i < l.lh.length := by omega
    exact ⟨h', List.getElem_append_left h'⟩

theorem mem_record {x : Nat} : x ∈ l.record sec ↔ x ∈ l.lh ∨ x = sec := by
  unfold LogState.record recordSector
  by_cases hm : sec ∈ l.lh
  · rw [if_pos hm]
    exact ⟨Or.inl, fun h => h.elim id fun h => h ▸ hm⟩
  · rw [if_neg hm]
    simp

theorem nodup_record (h : l.lh.Nodup) : (l.record sec).Nodup := by
  unfold LogState.record recordSector
  by_cases hm : sec ∈ l.lh
  · rw [if_pos hm]; exact h
  · rw [if_neg hm]
    exact List.nodup_append.mpr ⟨h, List.nodup_singleton _, fun a ha b hb hab =>
      hm (List.mem_singleton.mp hb ▸ hab ▸ ha)⟩

theorem toFinset_record : (l.record sec).toFinset = insert sec l.lh.toFinset := by
  ext x
  simp only [List.mem_toFinset, mem_record, Finset.mem_insert]
  exact or_comm

end Record

end Xv6
