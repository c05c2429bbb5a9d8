import Mathlib

/-!
# Little-endian fields and bits inside a block of bytes

A block is a function from byte offsets to bytes. Records of a disk format are
read and written through three accessors only, each with its read-over-write
laws, so that no later proof looks at individual bytes:

* `getLE` / `putLE` — an unsigned field of `w` bytes at an offset;
* `getI16` / `putI16` — a signed 16-bit field, two's complement;
* `getBit` / `setBit` / `clearBit` — one bit of a bit map, byte `k / 8`, bit `k % 8`.
-/

namespace Bytes

/-- The bytes of a sector, by offset. -/
abbrev Block := Nat → UInt8

def zero : Block := fun _ => 0

@[simp] theorem zero_apply (x : Nat) : zero x = 0 := rfl

/-! ### Unsigned fields -/

/-- The `w`-byte little-endian field at offset `o`. -/
def getLE (b : Block) (o : Nat) : Nat → Nat
  | 0 => 0
  | w + 1 => (b o).toNat + 256 * getLE b (o + 1) w

/-- Store the low `w` bytes of `v` at offset `o`, little-endian. -/
def putLE (b : Block) (o w v : Nat) : Block :=
  fun x => if o ≤ x ∧ x < o + w then UInt8.ofNat (v / 256 ^ (x - o)) else b x

theorem getLE_congr {b b' : Block} {o w : Nat}
    (h : ∀ x, o ≤ x → x < o + w → b x = b' x) : getLE b o w = getLE b' o w := by
  induction w generalizing o with
  | zero => rfl
  | succ w ih =>
    rw [getLE, getLE, h o le_rfl (by omega), ih fun x h1 h2 => h x (by omega) (by omega)]

theorem getLE_lt (b : Block) (o w : Nat) : getLE b o w < 256 ^ w := by
  induction w generalizing o with
  | zero => simp [getLE]
  | succ w ih =>
    have h1 := ih (o + 1)
    have h2 : (b o).toNat < 256 := (b o).toNat_lt
    rw [getLE, pow_succ]
    omega

@[simp] theorem getLE_zero (o w : Nat) : getLE zero o w = 0 := by
  induction w generalizing o with
  | zero => rfl
  | succ w ih => simp [getLE, ih]

theorem putLE_of_not_mem {b : Block} {o w v x : Nat} (h : x < o ∨ o + w ≤ x) :
    putLE b o w v x = b x := by
  unfold putLE
  rw [if_neg (by omega)]

private theorem getLE_putLE_aux (b : Block) (o w v : Nat) :
    ∀ k j, j + k = w → getLE (putLE b o w v) (o + j) k = v / 256 ^ j % 256 ^ k := by
  intro k
  induction k with
  | zero => intro j _; simp [getLE, Nat.mod_one]
  | succ k ih =>
    intro j hj
    have hbyte : (putLE b o w v (o + j)).toNat = v / 256 ^ j % 256 := by
      unfold putLE
      rw [if_pos (by omega), Nat.add_sub_cancel_left]
      simp
    rw [getLE, hbyte, show o + j + 1 = o + (j + 1) by omega, ih (j + 1) (by omega),
      pow_succ, pow_succ, ← Nat.div_div_eq_div_mul, Nat.mul_comm (256 ^ k) 256,
      Nat.mod_mul]

theorem getLE_putLE_self (b : Block) (o w v : Nat) :
    getLE (putLE b o w v) o w = v % 256 ^ w := by
  have h := getLE_putLE_aux b o w v w 0 (by omega)
  simpa using h

theorem getLE_putLE_of_lt {b : Block} {o w v : Nat} (h : v < 256 ^ w) :
    getLE (putLE b o w v) o w = v := by
  rw [getLE_putLE_self, Nat.mod_eq_of_lt h]

theorem getLE_putLE_disjoint {b : Block} {o w v o' w' : Nat}
    (h : o' + w' ≤ o ∨ o + w ≤ o') : getLE (putLE b o w v) o' w' = getLE b o' w' :=
  getLE_congr fun _ _ _ => putLE_of_not_mem (by omega)

/-! ### Signed 16-bit fields -/

/-- The value of a 16-bit pattern read as a `short`. -/
def wrap16 (v : Int) : Int := (v + 2 ^ 15) % 2 ^ 16 - 2 ^ 15

/-- The range of a `short`. -/
def IsShort (v : Int) : Prop := -2 ^ 15 ≤ v ∧ v < 2 ^ 15

def getI16 (b : Block) (o : Nat) : Int := wrap16 (getLE b o 2)

def putI16 (b : Block) (o : Nat) (v : Int) : Block := putLE b o 2 (v % 2 ^ 16).toNat

theorem getI16_congr {b b' : Block} {o : Nat}
    (h : ∀ x, o ≤ x → x < o + 2 → b x = b' x) : getI16 b o = getI16 b' o := by
  unfold getI16
  rw [getLE_congr h]

theorem getI16_putI16_self {b : Block} {o : Nat} {v : Int} (h : IsShort v) :
    getI16 (putI16 b o v) o = v := by
  unfold getI16 putI16
  rw [getLE_putLE_of_lt (by omega)]
  unfold IsShort at h
  unfold wrap16
  omega

theorem putI16_of_not_mem {b : Block} {o x : Nat} {v : Int} (h : x < o ∨ o + 2 ≤ x) :
    putI16 b o v x = b x := putLE_of_not_mem h

@[simp] theorem getI16_zero (o : Nat) : getI16 zero o = 0 := by
  simp [getI16, wrap16]

/-! ### Bits -/

/-- Bit `k` of a bit map: bit `k % 8` of byte `k / 8`. -/
def getBit (b : Block) (k : Nat) : Bool := (b (k / 8)).toNat.testBit (k % 8)

/-- `data[k/8] |= 1 << (k % 8)`. -/
def setBit (b : Block) (k : Nat) : Block :=
  fun x => if x = k / 8 then UInt8.ofNat ((b x).toNat ||| 1 <<< (k % 8)) else b x

/-- `data[k/8] &= ~(1 << (k % 8))`. -/
def clearBit (b : Block) (k : Nat) : Block :=
  fun x => if x = k / 8 then UInt8.ofNat ((b x).toNat &&& (255 ^^^ 1 <<< (k % 8))) else b x

private theorem testBit_ofNat_toNat {n i : Nat} (hi : i < 8) :
    (UInt8.ofNat n).toNat.testBit i = n.testBit i := by
  rw [UInt8.toNat_ofNat', Nat.testBit_mod_two_pow]
  simp [hi]

private theorem div_mod_ext {k k' : Nat} (h1 : k' / 8 = k / 8) (h2 : k' % 8 = k % 8) :
    k' = k := by omega

theorem getBit_setBit (b : Block) (k k' : Nat) :
    getBit (setBit b k) k' = if k' = k then true else getBit b k' := by
  unfold getBit setBit
  by_cases hd : k' / 8 = k / 8
  · rw [if_pos hd, testBit_ofNat_toNat (Nat.mod_lt _ (by decide)), Nat.testBit_or,
      Nat.one_shiftLeft, Nat.testBit_two_pow]
    by_cases hm : k % 8 = k' % 8
    · rw [if_pos (div_mod_ext hd hm.symm)]; simp [hm]
    · rw [if_neg (fun h => hm (by rw [h]))]; simp [hm]
  · rw [if_neg hd, if_neg (fun h => hd (by rw [h]))]

@[simp] theorem getBit_zero (k : Nat) : getBit zero k = false := by
  simp [getBit]

/-! ### Copies -/

/-- `memmove` of `n` bytes of `src` to offset `o` of the block. -/
def overlay (b : Block) (o n : Nat) (src : Nat → UInt8) : Block :=
  fun x => if o ≤ x ∧ x < o + n then src (x - o) else b x

theorem overlay_of_mem {b : Block} {o n x : Nat} {src : Nat → UInt8}
    (h1 : o ≤ x) (h2 : x < o + n) : overlay b o n src x = src (x - o) := by
  unfold overlay
  rw [if_pos ⟨h1, h2⟩]

theorem overlay_of_not_mem {b : Block} {o n x : Nat} {src : Nat → UInt8}
    (h : x < o ∨ o + n ≤ x) : overlay b o n src x = b x := by
  unfold overlay
  rw [if_neg (by omega)]

/-- The bytes of an array of 32-bit words. -/
def wordBytes (a : Nat → Nat) : Nat → UInt8 := fun x => UInt8.ofNat (a (x / 4) / 256 ^ (x % 4))

/-- Reading a word of an array that was copied into the block. -/
theorem getLE_overlay_words {b : Block} {o n k : Nat} {a : Nat → Nat} (hk : k < n)
    (ha : a k < 2 ^ 32) : getLE (overlay b o (4 * n) (wordBytes a)) (o + 4 * k) 4 = a k := by
  have hcopy : getLE (overlay b o (4 * n) (wordBytes a)) (o + 4 * k) 4
      = getLE (putLE b (o + 4 * k) 4 (a k)) (o + 4 * k) 4 := by
    refine getLE_congr fun x h1 h2 => ?_
    rw [overlay_of_mem (by omega) (by omega)]
    unfold putLE wordBytes
    rw [if_pos ⟨h1, h2⟩, show (x - o) / 4 = k by omega,
      show (x - o) % 4 = x - (o + 4 * k) by omega]
  rw [hcopy, getLE_putLE_of_lt (by simpa using ha)]

end Bytes
