import AffineRelations.Word.Error

/-!
# The ring of w-bit words

Elements of `Z/2^w` are carried by 64-bit words. A word need not be reduced:
two words denote one element when their low `w` bits agree, and every
operation below answers with the reduced word.

The valuation of a word is found by table lookup. For a prime `p` modulo which
the powers `2^0, ..., 2^(w-1)` are distinct, the lowest set bit of a word is
known from its remainder modulo `p`. The table depends on the width alone and
is kept beside it.
-/
namespace AffineRelations

/-- The word whose low `w` bits are set. -/
def lowMask (w : Nat) : UInt64 :=
  if w < 64 then (1 <<< UInt64.ofNat w) - 1 else ~~~0

def isPrimeNat (n : Nat) : Bool :=
  2 ≤ n && (List.range n).all fun d => d < 2 || n % d != 0

/-- Remainders modulo `p` from `x` on, `n` of them, each from the double of the
one before it. -/
def doublings (p : Nat) : (n x : Nat) → List Nat
  | 0, _ => []
  | n + 1, x => x :: doublings p n (x * 2 % p)

/-- Marks one number after another, and stops at one that has a mark already. -/
def allFresh (seen : Array Bool) : List Nat → Bool
  | [] => true
  | x :: xs => if seen.getD x false then false else allFresh (seen.setIfInBounds x true) xs

/-- The first `w` powers of two leave different remainders modulo `p`. -/
def separatesPowers (p w : Nat) : Bool :=
  allFresh (Array.replicate p false) (doublings p w (1 % p))

/-- Goes up from `p` to a prime that separates the first `w` powers of two. It
makes `n` steps at most. -/
def searchModulus (w : Nat) : (n p : Nat) → Nat
  | 0, p => p
  | n + 1, p => if isPrimeNat p && separatesPowers p w then p else searchModulus w n (p + 1)

/-- The smallest prime from `max w 2` on that separates the first `w` powers of
two. For the widths in use the search ends within 64 steps. -/
def tableModulus (w : Nat) : Nat := searchModulus w 64 (max w 2)

/-- The exponent `i` stands at the remainder of `2^i`. -/
structure PowerTable where
  modulus : Nat
  exponents : Array Nat
  deriving DecidableEq, Repr

def PowerTable.ofWidth (w : Nat) : PowerTable :=
  let p := tableModulus w
  ⟨p, (doublings p w (1 % p)).zipIdx.foldl (fun t x => t.setIfInBounds x.1 x.2)
    (Array.replicate p 0)⟩

/-- The exponent of a power of two below `2^w`. -/
def PowerTable.exponent (t : PowerTable) (x : UInt64) : Nat :=
  t.exponents.getD (x.toNat % t.modulus) 0

/-- The ring `Z/2^w`. Mask and table are fixed by the width. -/
structure WordRing where
  width : Nat
  width_pos : 0 < width
  width_le : width ≤ 64
  mask : UInt64
  mask_eq : mask = lowMask width
  table : PowerTable
  table_eq : table = PowerTable.ofWidth width
  deriving DecidableEq

namespace WordRing

def ofWidth (bits : Int) : Except WordError WordRing :=
  if h : 0 < bits.toNat ∧ bits.toNat ≤ 64 then
    .ok { width := bits.toNat, width_pos := h.1, width_le := h.2
          mask := lowMask bits.toNat, mask_eq := rfl
          table := PowerTable.ofWidth bits.toNat, table_eq := rfl }
  else .error (.width bits)

/-- The modulus of the table. -/
def prime (r : WordRing) : Nat := r.table.modulus

def render (r : WordRing) : String := s!"Z/2^{r.width}"

/-- The reduced word with the same meaning. -/
def residue (r : WordRing) (x : UInt64) : UInt64 := x &&& r.mask

/-- Valuation and odd part: `(k, d)` with `x = 2^k * d`, and `(w, 0)` for zero. -/
def split (r : WordRing) (x : UInt64) : Nat × UInt64 :=
  let v := r.residue x
  if v = 0 then (r.width, 0)
  else if v &&& 1 = 1 then (0, v)
  else
    let k := r.table.exponent (v &&& (~~~v + 1))
    (k, v >>> UInt64.ofNat k)

def valuation (r : WordRing) (x : UInt64) : Nat := (r.split x).1

/-- The word of a signed integer. -/
def ofInt64 (r : WordRing) (c : Int64) : UInt64 := r.residue c.toUInt64

/-- The signed reading of a word: its top bit weighs `-2^(w-1)`. -/
def toInt64 (r : WordRing) (x : UInt64) : Int64 :=
  let v := r.residue x
  if r.width < 64 ∧ v >>> UInt64.ofNat (r.width - 1) = 1 then
    v.toInt64 - (1 <<< UInt64.ofNat r.width : UInt64).toInt64
  else v.toInt64

def add (r : WordRing) (x y : UInt64) : UInt64 := r.residue (x + y)

def sub (r : WordRing) (x y : UInt64) : UInt64 := r.residue (x - y)

def mul (r : WordRing) (x y : UInt64) : UInt64 := r.residue (x * y)

def neg (r : WordRing) (x : UInt64) : UInt64 := r.residue (0 - x)

/-- `2^k` in the ring, and zero for exponents that are negative. -/
def pow2 (r : WordRing) : Int → UInt64
  | .ofNat k => if k < r.width then 1 <<< UInt64.ofNat k else 0
  | .negSucc _ => 0

/-- One refinement of an approximate inverse of `d`: it doubles the number of
low bits that are right. -/
def refineInverse (d x : UInt64) : UInt64 := x * (2 - d * x)

/-- The inverse of an odd word. An odd word inverts itself modulo 8, and five
refinements reach 64 bits. -/
def inverse (r : WordRing) (x : UInt64) : Except WordError UInt64 :=
  let d := r.residue x
  if d &&& 1 = 0 then .error .notUnit
  else .ok (r.residue (Nat.repeat (refineInverse d) 5 d))

end WordRing

end AffineRelations
