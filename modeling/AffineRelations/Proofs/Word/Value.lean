import AffineRelations.Word.Ring
import Mathlib.Data.ZMod.Basic

/-!
# What a word denotes

A word of 64 bits denotes the element of `Z/2^w` that its low `w` bits give.
Wrapping at 64 bits is invisible there, because `2^w` divides `2^64`, so every
operation of the ring is the ring's own operation on what the words denote.
Among the reduced words each element is denoted by exactly one.
-/
namespace AffineRelations.WordRing

/-- The ring of a width in range. -/
def ofBits (w : ℕ) (hpos : 0 < w) (hle : w ≤ 64) : WordRing where
  width := w
  width_pos := hpos
  width_le := hle
  mask := lowMask w
  mask_eq := rfl
  table := PowerTable.ofWidth w
  table_eq := rfl

theorem width_of_ofWidth {w : ℕ} (hpos : 0 < w) (hle : w ≤ 64) :
    ∃ r, ofWidth w = .ok r ∧ r.width = w := by
  have hrange : 0 < (w : Int).toNat ∧ (w : Int).toNat ≤ 64 := by omega
  exact ⟨_, dif_pos hrange, Int.toNat_natCast w⟩

/-- The elements that the words of a ring denote. -/
abbrev Elem (r : WordRing) := ZMod (2 ^ r.width)

/-- The element that a word denotes. -/
def value (r : WordRing) (x : UInt64) : r.Elem := (x.toNat : r.Elem)

/-- The reduced word that denotes an element. -/
def word (r : WordRing) (a : r.Elem) : UInt64 := UInt64.ofNat a.val

/-- A word without bits from position `w` on. -/
def Reduced (r : WordRing) (x : UInt64) : Prop := x.toNat < 2 ^ r.width

instance (r : WordRing) (x : UInt64) : Decidable (r.Reduced x) := Nat.decLt _ _

variable (r : WordRing)

theorem two_pow_width_dvd : 2 ^ r.width ∣ 2 ^ 64 := Nat.pow_dvd_pow 2 r.width_le

theorem two_pow_width_eq_zero : (2 : r.Elem) ^ r.width = 0 := by
  exact_mod_cast ZMod.natCast_self (2 ^ r.width)

theorem two_pow_eq_zero {k : ℕ} (hk : r.width ≤ k) : (2 : r.Elem) ^ k = 0 := by
  obtain ⟨j, rfl⟩ := Nat.exists_eq_add_of_le hk
  rw [pow_add, two_pow_width_eq_zero, zero_mul]

theorem toNat_one_shiftLeft {k : ℕ} (hk : k < 64) :
    ((1 : UInt64) <<< UInt64.ofNat k).toNat = 2 ^ k := by
  have hlt : 2 ^ k < 2 ^ 64 := Nat.pow_lt_pow_right (by decide) hk
  rw [UInt64.toNat_shiftLeft, UInt64.toNat_ofNat_of_lt' (by simp only [UInt64.size]; omega),
    Nat.mod_eq_of_lt hk, Nat.shiftLeft_eq, UInt64.toNat_one, one_mul, Nat.mod_eq_of_lt hlt]

theorem toNat_shiftRight_ofNat {k : ℕ} (hk : k < 64) (x : UInt64) :
    (x >>> UInt64.ofNat k).toNat = x.toNat / 2 ^ k := by
  rw [UInt64.toNat_shiftRight, UInt64.toNat_ofNat_of_lt' (by simp only [UInt64.size]; omega),
    Nat.mod_eq_of_lt hk, Nat.shiftRight_eq_div_pow]

theorem toNat_lowMask {w : ℕ} (hw : w ≤ 64) : (lowMask w).toNat = 2 ^ w - 1 := by
  unfold lowMask
  split_ifs with h
  · have hle : (1 : UInt64) ≤ 1 <<< UInt64.ofNat w := by
      rw [UInt64.le_iff_toNat_le, toNat_one_shiftLeft h]
      exact Nat.one_le_two_pow
    rw [UInt64.toNat_sub_of_le _ _ hle, toNat_one_shiftLeft h]
    rfl
  · have he : w = 64 := by omega
    subst he
    rfl

theorem toNat_residue (x : UInt64) : (r.residue x).toNat = x.toNat % 2 ^ r.width := by
  rw [residue, r.mask_eq, UInt64.toNat_and, toNat_lowMask r.width_le,
    Nat.and_two_pow_sub_one_eq_mod]

theorem residue_mod_two (x : UInt64) : (r.residue x).toNat % 2 = x.toNat % 2 := by
  have hdvd : 2 ∣ 2 ^ r.width := dvd_pow_self 2 r.width_pos.ne'
  rw [toNat_residue, Nat.mod_mod_of_dvd _ hdvd]

theorem reduced_residue (x : UInt64) : r.Reduced (r.residue x) := by
  rw [Reduced, toNat_residue]
  exact Nat.mod_lt _ (Nat.two_pow_pos _)

@[simp] theorem value_residue (x : UInt64) : r.value (r.residue x) = r.value x := by
  rw [value, value, toNat_residue, ZMod.natCast_mod]

/-- Two reduced words that denote one element are one word. -/
theorem value_inj {x y : UInt64} (hx : r.Reduced x) (hy : r.Reduced y)
    (h : r.value x = r.value y) : x = y := by
  have hmod := (ZMod.natCast_eq_natCast_iff' _ _ _).mp h
  rw [Nat.mod_eq_of_lt hx, Nat.mod_eq_of_lt hy] at hmod
  exact UInt64.toNat_inj.mp hmod

@[simp] theorem value_zero : r.value 0 = 0 := by simp [value]

@[simp] theorem value_one : r.value 1 = 1 := by simp [value]

theorem toNat_word (a : r.Elem) : (r.word a).toNat = a.val := by
  have hlt := ZMod.val_lt a
  have hle := Nat.pow_le_pow_right (n := 2) (by decide) r.width_le
  rw [word, UInt64.toNat_ofNat_of_lt' (by simp only [UInt64.size]; omega)]

theorem reduced_word (a : r.Elem) : r.Reduced (r.word a) := by
  rw [Reduced, toNat_word]
  exact ZMod.val_lt a

@[simp] theorem value_word (a : r.Elem) : r.value (r.word a) = a := by
  rw [value, toNat_word, ZMod.natCast_zmod_val]

theorem eq_word {x : UInt64} {a : r.Elem} (hx : r.Reduced x) (h : r.value x = a) :
    x = r.word a :=
  r.value_inj hx (r.reduced_word a) (h.trans (r.value_word a).symm)

theorem toNat_word_intCast (z : ℤ) : ((r.word (z : r.Elem)).toNat : ℤ) = z % 2 ^ r.width := by
  rw [toNat_word, ZMod.val_intCast, Nat.cast_pow, Nat.cast_ofNat]

theorem reduced_zero : r.Reduced 0 := Nat.two_pow_pos _

theorem reduced_one : r.Reduced 1 := by
  have h := Nat.pow_lt_pow_right (a := 2) (by decide) r.width_pos
  simpa [Reduced] using h

theorem value_eq_zero_iff {x : UInt64} (hx : r.Reduced x) : r.value x = 0 ↔ x = 0 := by
  constructor
  · intro h
    exact r.value_inj hx r.reduced_zero (h.trans r.value_zero.symm)
  · rintro rfl
    exact r.value_zero

/-- Wrapping at 64 bits is invisible. -/
theorem natCast_mod_word (n : ℕ) : ((n % 2 ^ 64 : ℕ) : r.Elem) = n := by
  rw [ZMod.natCast_eq_natCast_iff', Nat.mod_mod_of_dvd _ r.two_pow_width_dvd]

@[simp] theorem value_word_add (x y : UInt64) : r.value (x + y) = r.value x + r.value y := by
  rw [value, UInt64.toNat_add, natCast_mod_word, Nat.cast_add]
  rfl

@[simp] theorem value_word_mul (x y : UInt64) : r.value (x * y) = r.value x * r.value y := by
  rw [value, UInt64.toNat_mul, natCast_mod_word, Nat.cast_mul]
  rfl

@[simp] theorem value_word_sub (x y : UInt64) : r.value (x - y) = r.value x - r.value y := by
  rw [eq_sub_iff_add_eq, ← value_word_add, UInt64.sub_add_cancel]

@[simp] theorem value_add (x y : UInt64) : r.value (r.add x y) = r.value x + r.value y := by
  simp [add]

@[simp] theorem value_sub (x y : UInt64) : r.value (r.sub x y) = r.value x - r.value y := by
  simp [sub]

@[simp] theorem value_mul (x y : UInt64) : r.value (r.mul x y) = r.value x * r.value y := by
  simp [mul]

@[simp] theorem value_neg (x : UInt64) : r.value (r.neg x) = -r.value x := by
  rw [neg, value_residue, value_word_sub, value_zero, zero_sub]

theorem toNat_pow2 {k : ℕ} (hk : k < r.width) : (r.pow2 (k : Int)).toNat = 2 ^ k := by
  have h := r.width_le
  change (if k < r.width then (1 : UInt64) <<< UInt64.ofNat k else 0).toNat = 2 ^ k
  rw [if_pos hk, toNat_one_shiftLeft (by omega)]

theorem reduced_pow2 (k : ℕ) : r.Reduced (r.pow2 (k : Int)) := by
  by_cases hk : k < r.width
  · rw [Reduced, toNat_pow2 r hk]
    exact Nat.pow_lt_pow_right (by decide) hk
  · change r.Reduced (if k < r.width then (1 : UInt64) <<< UInt64.ofNat k else 0)
    rw [if_neg hk]
    exact r.reduced_zero

@[simp] theorem value_pow2 (k : ℕ) : r.value (r.pow2 (k : Int)) = 2 ^ k := by
  by_cases hk : k < r.width
  · rw [value, toNat_pow2 r hk, Nat.cast_pow, Nat.cast_ofNat]
  · change r.value (if k < r.width then (1 : UInt64) <<< UInt64.ofNat k else 0) = 2 ^ k
    rw [if_neg hk, value_zero, two_pow_eq_zero r (by omega)]

theorem value_pow2_sub {j k : ℕ} (h : j ≤ k) :
    r.value (r.pow2 ((k : Int) - j)) = 2 ^ (k - j) := by
  rw [← Nat.cast_sub h, value_pow2]

end AffineRelations.WordRing
