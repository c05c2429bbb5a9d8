import Xv6.Lib.Prog

/-!
# What a program does to memory, whatever it reads from disk

`mwp S p Q m` is the weakest precondition of a program for statements about its memory only:
started with memory `m`, on any disk and with any buffers, the program ends with a result and a
memory that satisfy `Q`, or it stops. Reading a block may return anything, so nothing has to be
known about the disk; a program that panics does so with a text in `S`.

Its rules are equivalences, tagged for `simp`.
-/

open Bytes

namespace Device

section MemWp

variable {μ ε α β : Type} {S : String → Prop}

/-- One operation, seen from memory. -/
def Op.mwp (S : String → Prop) : (o : Op μ ε) → (o.Ret → μ → Prop) → μ → Prop
  | .bread _, Q, m => ∀ b, Q b m
  | .store _ _, Q, m => Q () m
  | .bwrite _, Q, m => Q () m
  | .brelse _, Q, m => Q () m
  | .pin _, Q, m => Q () m
  | .mem f, Q, m => Q m (f m)
  | .wait g f, Q, m => g m = true → Q () (f m)
  | .limit _ _, Q, m => Q () m
  | .emit _, Q, m => Q () m
  | .panic msg, _, _ => S msg
  | .yield, Q, m => Q () m

/-- The weakest precondition of a program for `Q`, which is about its memory. -/
def mwp (S : String → Prop) : Prog μ ε α → (α → μ → Prop) → μ → Prop
  | .ret a, Q, m => Q a m
  | .op o k, Q, m => o.mwp S (fun r m' => mwp S (k r) Q m') m

theorem Op.mwp_mono {o : Op μ ε} {Q Q' : o.Ret → μ → Prop} {m : μ} (h : o.mwp S Q m)
    (hQ : ∀ r m', Q r m' → Q' r m') : o.mwp S Q' m := by
  cases o with
  | bread sec => exact fun b => hQ b m (h b)
  | wait g f => exact fun hg => hQ () (f m) (h hg)
  | panic msg => exact h
  | mem f => exact hQ m (f m) h
  | _ => exact hQ () m h

theorem mwp_mono {p : Prog μ ε α} {Q Q' : α → μ → Prop} {m : μ} (h : mwp S p Q m)
    (hQ : ∀ a m', Q a m' → Q' a m') : mwp S p Q' m := by
  induction p generalizing m with
  | ret a => exact hQ a m h
  | op o k ih => exact Op.mwp_mono h fun r _ h' => ih r h'

@[simp] theorem mwp_bind (p : Prog μ ε α) (f : α → Prog μ ε β) (Q : β → μ → Prop) (m : μ) :
    mwp S (p >>= f) Q m ↔ mwp S p (fun a m' => mwp S (f a) Q m') m := by
  rw [Prog.bind_def]
  induction p generalizing m with
  | ret a => exact Iff.rfl
  | op o k ih =>
    exact ⟨fun h => Op.mwp_mono h fun r m' => (ih r m').mp,
      fun h => Op.mwp_mono h fun r m' => (ih r m').mpr⟩

variable {Q : α → μ → Prop} {m : μ}

@[simp] theorem mwp_pure (a : α) : mwp S (pure a : Prog μ ε α) Q m ↔ Q a m := Iff.rfl

@[simp] theorem mwp_get {Q : μ → μ → Prop} : mwp S (get : Prog μ ε μ) Q m ↔ Q m m := Iff.rfl

@[simp] theorem mwp_modify (f : μ → μ) {Q : Unit → μ → Prop} :
    mwp S (modify f : Prog μ ε Unit) Q m ↔ Q () (f m) := Iff.rfl

@[simp] theorem mwp_getModify (f : μ → μ) {Q : μ → μ → Prop} :
    mwp S (getModify f : Prog μ ε μ) Q m ↔ Q m (f m) := Iff.rfl

@[simp] theorem mwp_halt (msg : String) : mwp S (halt msg : Prog μ ε α) Q m ↔ S msg := Iff.rfl

@[simp] theorem mwp_yield {Q : Unit → μ → Prop} :
    mwp S (yield : Prog μ ε Unit) Q m ↔ Q () m := Iff.rfl

/-! ### Programs all of whose steps are alike -/

/-- An operation that changes the memory along `R` only, and that panics with a text in `S`. -/
def Op.Keeps (S : String → Prop) (R : μ → μ → Prop) : Op μ ε → Prop
  | .mem f => ∀ m, R m (f m)
  | .wait _ f => ∀ m, R m (f m)
  | .panic msg => S msg
  | _ => True

/-- Every operation of the program changes the memory along `R` only. -/
def Prog.Keeps (S : String → Prop) (R : μ → μ → Prop) : Prog μ ε α → Prop
  | .ret _ => True
  | .op o k => o.Keeps S R ∧ ∀ r, (k r).Keeps S R

section Keeps

variable {R : μ → μ → Prop} {p q : Prog μ ε α} {f : α → Prog μ ε β}

theorem Prog.Keeps.bind (hp : p.Keeps S R) (hf : ∀ a, (f a).Keeps S R) :
    (p >>= f).Keeps S R := by
  rw [Prog.bind_def]
  induction p with
  | ret a => exact hf a
  | op o k ih => exact ⟨hp.1, fun r => ih r (hp.2 r)⟩

theorem Prog.Keeps.pure (a : α) : (Pure.pure a : Prog μ ε α).Keeps S R := trivial

theorem Prog.Keeps.ite {c : Prop} [Decidable c] (hp : p.Keeps S R) (hq : q.Keeps S R) :
    (if c then p else q).Keeps S R := by
  split
  · exact hp
  · exact hq

theorem Prog.Keeps.check {c : Prop} [Decidable c] {msg : String} {f : Unit → Prog μ ε α}
    (h : S msg) (hf : (f ()).Keeps S R) : (if c then (Device.halt msg >>= f) else f ()).Keeps S R := by
  split
  · exact .bind ⟨h, nofun⟩ fun _ => hf
  · exact hf

theorem Prog.Keeps.bread (sec : Nat) : (bread sec : Prog μ ε Block).Keeps S R :=
  ⟨trivial, fun _ => trivial⟩

theorem Prog.Keeps.store (sec : Nat) (data : Block) : (store sec data : Prog μ ε Unit).Keeps S R :=
  ⟨trivial, fun _ => trivial⟩

theorem Prog.Keeps.bwrite (sec : Nat) : (bwrite sec : Prog μ ε Unit).Keeps S R :=
  ⟨trivial, fun _ => trivial⟩

theorem Prog.Keeps.brelse (sec : Nat) : (brelse sec : Prog μ ε Unit).Keeps S R :=
  ⟨trivial, fun _ => trivial⟩

theorem Prog.Keeps.pin (sec : Nat) : (pin sec : Prog μ ε Unit).Keeps S R :=
  ⟨trivial, fun _ => trivial⟩

theorem Prog.Keeps.limit (g : μ → Bool) (msg : String) :
    (limit g msg : Prog μ ε Unit).Keeps S R := ⟨trivial, fun _ => trivial⟩

theorem Prog.Keeps.emit (e : Machine μ ε → ε) : (emit e : Prog μ ε Unit).Keeps S R :=
  ⟨trivial, fun _ => trivial⟩

theorem Prog.Keeps.yield : (yield : Prog μ ε Unit).Keeps S R := ⟨trivial, fun _ => trivial⟩

theorem Prog.Keeps.halt {msg : String} (h : S msg) : (halt msg : Prog μ ε α).Keeps S R :=
  ⟨h, nofun⟩

theorem Prog.Keeps.modify {g : μ → μ} (h : ∀ m, R m (g m)) :
    (modify g : Prog μ ε Unit).Keeps S R := ⟨h, fun _ => trivial⟩

theorem Prog.Keeps.getModify {g : μ → μ} (h : ∀ m, R m (g m)) :
    (getModify g : Prog μ ε μ).Keeps S R := ⟨h, fun _ => trivial⟩

theorem Prog.Keeps.wait {c : μ → Bool} {g : μ → μ} (h : ∀ m, R m (g m)) :
    (wait c g : Prog μ ε Unit).Keeps S R := ⟨h, fun _ => trivial⟩

theorem Prog.Keeps.get (h : ∀ m, R m m) : (get : Prog μ ε μ).Keeps S R := ⟨h, fun _ => trivial⟩

/-- What every step keeps, the program keeps. -/
theorem mwp_of_keeps (hrefl : ∀ m, R m m) (htrans : ∀ {a b c}, R a b → R b c → R a c)
    (hp : p.Keeps S R) (hQ : ∀ a m', R m m' → Q a m') : mwp S p Q m := by
  induction p generalizing m with
  | ret a => exact hQ a m (hrefl m)
  | op o k ih =>
    obtain ⟨ho, hk⟩ := hp
    have step : ∀ r m', R m m' → mwp S (k r) Q m' := fun r m' h =>
      ih r (hk r) fun a m'' h' => hQ a m'' (htrans h h')
    cases o with
    | bread sec => exact fun b => step b m (hrefl m)
    | mem g => exact step m (g m) (ho m)
    | wait c g => exact fun _ => step () (g m) (ho m)
    | panic msg => exact ho
    | _ => exact step () m (hrefl m)

end Keeps

/-! ### Soundness -/

/-- A panic of the buffer cache, about which memory says nothing. -/
def bufferPanic (msg : String) : Prop := msg = "bwrite" ∨ msg = "brelse"

/-- What a statement about memory says of a run. -/
def Outcome.Sat (S : String → Prop) (Q : α → μ → Prop) :
    Outcome (Machine μ ε) α → Prop
  | .ok a s => Q a s.mem
  | .stop e _ => ∀ msg, e = .panic msg → S msg ∨ bufferPanic msg

theorem exec_of_mwp (L : Limits) (lim : Bool) {o : Op μ ε} {Q : o.Ret → μ → Prop}
    {s : Machine μ ε} (h : o.mwp S Q s.mem) : (exec L lim o s).Sat S Q := by
  cases o with
  | bread sec =>
    simp only [exec]
    split
    · rintro _ ⟨⟩
    · split
      · split
        · rintro _ ⟨⟩
        · exact h _
      · exact h _
  | bwrite sec =>
    simp only [exec]
    split
    · exact h
    · rintro _ ⟨⟩
      exact .inr (.inl rfl)
  | brelse sec =>
    simp only [exec]
    split
    · exact h
    · rintro _ ⟨⟩
      exact .inr (.inr rfl)
  | wait g f =>
    simp only [exec]
    split
    · next hg => exact h hg
    · rintro _ ⟨⟩
  | limit g msg =>
    simp only [exec]
    split
    · exact h
    · split
      · rintro _ ⟨⟩
      · exact h
  | panic msg =>
    rintro _ ⟨⟩
    exact .inl h
  | _ => exact h

/-- **Soundness.** What `mwp` promises holds of every run, with limits or without. -/
theorem run_of_mwp (L : Limits) (lim : Bool) {p : Prog μ ε α} {s : Machine μ ε}
    (h : mwp S p Q s.mem) : (run L lim p s).Sat S Q := by
  induction p generalizing s with
  | ret a => exact h
  | op o k ih =>
    have h1 := exec_of_mwp L lim h
    rw [run]
    cases he : exec L lim o s with
    | ok r t =>
      rw [he] at h1
      exact ih r h1
    | stop e t =>
      rw [he] at h1
      exact h1

end MemWp

-- from here on `mwp` is known by its rules
attribute [irreducible] mwp

end Device
