import AffineRelations.Proofs.Expr.Grammar
import AffineRelations.Proofs.Transition.WordStates

/-!
# Sums as they are written

The right side of an assignment is often a sum of literals, variables and
products of a literal with a variable, with a sign before each of them that the
first may lack. Here such sums are followed from their tokens to the matrices of
the assignment. The column of the target holds the signed coefficients, added up
row by row, and the other columns are those of the identity.

There is one exception. A minus sign in front of the first variable is a factor
of its own, so in `-y*2` the literal multiplies a product and no variable. The
sum is not recognised then, whatever follows, and the target is set free.
-/
namespace AffineRelations

/-- A part of a sum. The product of a literal and a variable has two orders. -/
inductive Summand where
  | literal (digits : List Char)
  | name (x : String)
  | literalTimes (digits : List Char) (x : String)
  | timesLiteral (x : String) (digits : List Char)
  deriving DecidableEq, Repr

namespace Summand

def tokens : Summand → List Token
  | .literal digits => [.int digits]
  | .name x => [.name x]
  | .literalTimes digits x => [.int digits, .op .mul, .name x]
  | .timesLiteral x digits => [.name x, .op .mul, .int digits]

def coefficient : Summand → ℕ
  | .literal digits | .literalTimes digits _ | .timesLiteral _ digits =>
    (Literal.ofText digits).value
  | .name _ => 1

/-- The row that the coefficient belongs to. Constants belong to row 0. -/
def row? (vars : List String) : Summand → Option ℕ
  | .literal _ => some 0
  | .name x | .literalTimes _ x | .timesLiteral x _ => slot? vars x

/-- The literal is below `2^64` and the variable is tracked. -/
def Readable (vars : List String) (t : Summand) : Prop :=
  t.coefficient < 18446744073709551616 ∧ (t.row? vars).isSome

instance (vars : List String) (t : Summand) : Decidable (t.Readable vars) :=
  inferInstanceAs (Decidable (_ ∧ _))

end Summand

structure SignedSummand where
  minus : Bool
  summand : Summand
  deriving DecidableEq, Repr

namespace SignedSummand

def op (t : SignedSummand) : Op := if t.minus then .sub else .add

theorem isAdditive_op (t : SignedSummand) : t.op.isAdditive := by
  unfold op
  split_ifs <;> rfl

/-- What the summand adds to a row. -/
def coefficientAt (vars : List String) (i : ℕ) (t : SignedSummand) : ℤ :=
  if t.summand.row? vars = some i
  then (if t.minus then -t.summand.coefficient else t.summand.coefficient)
  else 0

end SignedSummand

/-- A sum that starts with a sign only if it is a minus sign. -/
structure WrittenSum where
  first : SignedSummand
  rest : List SignedSummand
  deriving DecidableEq, Repr

namespace WrittenSum

def summands (s : WrittenSum) : List SignedSummand := s.first :: s.rest

def tokens (s : WrittenSum) : List Token :=
  (if s.first.minus then [.op .sub] else []) ++ s.first.summand.tokens ++
    s.rest.flatMap fun t => .op t.op :: t.summand.tokens

def coefficientAt (vars : List String) (i : ℕ) (s : WrittenSum) : ℤ :=
  (s.summands.map (SignedSummand.coefficientAt vars i)).sum

/-- The sum starts as in `-y*2`. -/
def startsWithSignedProduct (s : WrittenSum) : Bool :=
  s.first.minus && match s.first.summand with
    | .timesLiteral _ _ => true
    | _ => false

end WrittenSum

namespace Summand

/-- The number that is read for a literal. -/
def number (digits : List Char) : Int64 := Int64.ofNat (Literal.ofText digits).value

def tree : Summand → Expr
  | .literal digits => .num (number digits)
  | .name x => .var x
  | .literalTimes digits x => .bin .mul (.num (number digits)) (.var x)
  | .timesLiteral x digits => .bin .mul (.var x) (.num (number digits))

/-- The tree behind a minus sign, which binds more tightly than a product. -/
def negatedTree : Summand → Expr
  | .literal digits => .num (-number digits)
  | .name x => .bin .mul (.num (-1)) (.var x)
  | .literalTimes digits x => .bin .mul (.num (-number digits)) (.var x)
  | .timesLiteral x digits => .bin .mul (.bin .mul (.num (-1)) (.var x)) (.num (number digits))

theorem isAdditive_tree (t : Summand) : t.tree.isAdditive = false := by
  cases t <;> rfl

theorem derives_tree {t : Summand} (h : t.coefficient < 18446744073709551616) :
    Derives .product t.tokens t.tree := by
  cases t with
  | literal digits => exact .unary (.primary (.int h))
  | name x => exact .unary (.primary (.name x))
  | literalTimes digits x =>
      exact .multiply (.unary (.primary (.int h))) rfl (.primary (.name x))
  | timesLiteral x digits =>
      exact .multiply (.unary (.primary (.name x))) rfl (.primary (.int h))

theorem derives_negatedTree {t : Summand} (h : t.coefficient < 18446744073709551616) :
    Derives .product (.op .sub :: t.tokens) t.negatedTree := by
  cases t with
  | literal digits => exact .unary (.minusNum (.primary (.int h)))
  | name x => exact .unary (.minus (.primary (.name x)) nofun)
  | literalTimes digits x =>
      exact .multiply (.unary (.minusNum (.primary (.int h)))) rfl (.primary (.name x))
  | timesLiteral x digits =>
      exact .multiply (.unary (.minus (.primary (.name x)) nofun)) rfl (.primary (.int h))

end Summand

namespace WrittenSum

def firstTree (s : WrittenSum) : Expr :=
  if s.first.minus then s.first.summand.negatedTree else s.first.summand.tree

/-- The operators of a sum are applied from left to right. -/
def tree (s : WrittenSum) : Expr :=
  s.rest.foldl (fun e t => .bin t.op e t.summand.tree) s.firstTree

theorem derives_rest {rest : List SignedSummand}
    (h : ∀ t ∈ rest, t.summand.coefficient < 18446744073709551616) {ts : List Token} {e : Expr}
    (he : Derives .sum ts e) :
    Derives .sum (ts ++ rest.flatMap fun t => .op t.op :: t.summand.tokens)
      (rest.foldl (fun e t => .bin t.op e t.summand.tree) e) := by
  induction rest generalizing ts e with
  | nil => simpa using he
  | cons t rest ih =>
      obtain ⟨ht, hrest⟩ := List.forall_mem_cons.mp h
      rw [List.flatMap_cons, ← List.append_assoc, List.foldl_cons]
      exact ih hrest (he.add t.isAdditive_op (Summand.derives_tree ht))

theorem derives_tree {s : WrittenSum}
    (h : ∀ t ∈ s.summands, t.summand.coefficient < 18446744073709551616) :
    Derives .sum s.tokens s.tree := by
  obtain ⟨hfirst, hrest⟩ := List.forall_mem_cons.mp h
  refine derives_rest hrest (.product ?_)
  rw [firstTree]
  split_ifs with hminus
  · exact Summand.derives_negatedTree hfirst
  · exact Summand.derives_tree hfirst

end WrittenSum

namespace Summand

/-- The factor in the tree. -/
def factor : Summand → Int64
  | .literal digits | .literalTimes digits _ | .timesLiteral _ digits => number digits
  | .name _ => 1

theorem row?_lt {vars : List String} {t : Summand} {i : ℕ} (h : t.row? vars = some i) :
    i < vars.length + 1 := by
  cases t with
  | literal digits =>
      obtain rfl := Option.some.inj h
      exact Nat.succ_pos _
  | name x | literalTimes digits x | timesLiteral x digits =>
      obtain ⟨k, -, rfl⟩ := slot?_eq_some h
      exact k.succ.isLt

end Summand

namespace WordRing
variable (r : WordRing)

theorem intCast_factor (t : Summand) : (t.factor.toInt : r.Elem) = t.coefficient := by
  have hnumber (digits : List Char) :
      ((Summand.number digits).toInt : r.Elem) = (Literal.ofText digits).value := by
    rw [Summand.number, intCast_toInt_ofNat]
  cases t with
  | name x => simp [Summand.factor, Summand.coefficient]
  | literal | literalTimes | timesLiteral => exact hnumber _

theorem intCast_neg_factor (t : Summand) : ((-t.factor).toInt : r.Elem) = -t.coefficient := by
  rw [intCast_toInt_neg, intCast_factor]

/-- A column of reduced words that denote the integers of `f`. -/
structure Column (n : ℕ) (f : ℕ → ℤ) (col : WordVec) : Prop where
  length_eq : col.length = n
  reduced : r.ReducedVec col
  coords_eq : r.coords n col = fun i : Fin n => (f i : r.Elem)

variable {r}

theorem Column.toNat_eq {n : ℕ} {f : ℕ → ℤ} {col : WordVec} (h : r.Column n f col) {i : ℕ}
    (hi : i < n) : ((col.getD i 0).toNat : ℤ) = f i % 2 ^ r.width := by
  have hreduced : r.Reduced (col.getD i 0) := by
    rw [List.getD_eq_getElem _ _ (h.length_eq.symm ▸ hi)]
    exact h.reduced _ (List.getElem_mem _)
  have hword : col.getD i 0 = r.word (f i : r.Elem) :=
    r.eq_word hreduced (congrFun h.coords_eq ⟨i, hi⟩)
  rw [hword, r.toNat_word_intCast]

theorem column_term {n i : ℕ} (hi : i < n) {c : Int64} {negative : Bool} {z : ℤ}
    (hz : (if negative then -(c.toInt : r.Elem) else c.toInt) = z) :
    r.Column n (fun j => if some i = some j then z else 0) (r.term n i c negative) := by
  refine ⟨by simp [term], fun x hx => ?_, ?_⟩
  · obtain ⟨j, -, rfl⟩ := List.mem_map.mp hx
    by_cases hj : j = i
    · rw [if_pos hj]
      exact r.reduced_residue _
    · rw [if_neg hj]
      exact r.reduced_zero
  · rw [r.coords_term hi, hz]
    funext j
    rw [Pi.single_apply]
    by_cases hj : j = ⟨i, hi⟩
    · subst hj
      simp
    · have hne : i ≠ j := fun h => hj (Fin.ext h.symm)
      simp [hj, hne]

theorem Column.add {n : ℕ} {f g : ℕ → ℤ} {u v : WordVec} (hu : r.Column n f u)
    (hv : r.Column n g v) : r.Column n (fun i => f i + g i) (r.addVec u v) := by
  have hlen : u.length = v.length := hu.length_eq.trans hv.length_eq.symm
  refine ⟨?_, r.reducedVec_addVec u v, ?_⟩
  · rw [addVec, List.length_zipWith, ← hlen, Nat.min_self, hu.length_eq]
  · rw [r.coords_addVec hlen, hu.coords_eq, hv.coords_eq]
    funext i
    rw [Pi.add_apply, Int.cast_add]

section
variable {vars : List String}

theorem coefficients?_tree {t : Summand} {i : ℕ} (hi : t.row? vars = some i) (negative : Bool) :
    r.coefficients? vars negative t.tree = some (r.term (vars.length + 1) i t.factor negative) := by
  cases t with
  | literal digits =>
      obtain rfl := Option.some.inj hi
      rfl
  | name x | literalTimes digits x | timesLiteral x digits =>
      have hslot : slot? vars x = some i := hi
      simp [Summand.tree, coefficients?, AffineRelations.factor?, hslot, Summand.factor]

/-- A minus sign reaches the factor, unless the variable comes first in a product. -/
theorem coefficients?_negatedTree {t : Summand} {i : ℕ} (hi : t.row? vars = some i)
    (ht : ∀ x digits, t ≠ .timesLiteral x digits) :
    r.coefficients? vars false t.negatedTree =
      some (r.term (vars.length + 1) i (-t.factor) false) := by
  cases t with
  | literal digits =>
      obtain rfl := Option.some.inj hi
      rfl
  | name x | literalTimes digits x =>
      have hslot : slot? vars x = some i := hi
      simp [Summand.negatedTree, coefficients?, AffineRelations.factor?, hslot, Summand.factor]
  | timesLiteral x digits => exact (ht x digits rfl).elim

theorem column_tree {t : SignedSummand} (h : t.summand.Readable vars) :
    ∃ col, r.coefficients? vars t.minus t.summand.tree = some col ∧
      r.Column (vars.length + 1) (fun i => t.coefficientAt vars i) col := by
  obtain ⟨i, hi⟩ := Option.isSome_iff_exists.mp h.2
  refine ⟨_, coefficients?_tree hi t.minus, ?_⟩
  simp only [SignedSummand.coefficientAt, hi]
  refine column_term (Summand.row?_lt hi) ?_
  rw [r.intCast_factor]
  split_ifs <;> simp

theorem column_firstTree {s : WrittenSum} (h : s.first.summand.Readable vars)
    (hs : s.startsWithSignedProduct = false) :
    ∃ col, r.coefficients? vars false s.firstTree = some col ∧
      r.Column (vars.length + 1) (fun i => s.first.coefficientAt vars i) col := by
  rw [WrittenSum.firstTree]
  split_ifs with hminus
  · obtain ⟨i, hi⟩ := Option.isSome_iff_exists.mp h.2
    have ht (x : String) (digits : List Char) : s.first.summand ≠ .timesLiteral x digits := by
      intro heq
      simp [WrittenSum.startsWithSignedProduct, hminus, heq] at hs
    refine ⟨_, coefficients?_negatedTree hi ht, ?_⟩
    simp only [SignedSummand.coefficientAt, hi, hminus, if_true]
    refine column_term (Summand.row?_lt hi) ?_
    rw [if_neg Bool.false_ne_true, r.intCast_neg_factor, Int.cast_neg, Int.cast_natCast]
  · have hfirst := column_tree (r := r) h
    rwa [Bool.eq_false_of_not_eq_true hminus] at hfirst

/-- One step of a sum. The right operand is never a sum itself. -/
theorem coefficients?_bin (e : Expr) (t : SignedSummand) :
    r.coefficients? vars false (.bin t.op e t.summand.tree) =
      (r.coefficients? vars false e).bind fun u =>
        (r.coefficients? vars t.minus t.summand.tree).map (r.addVec u) := by
  cases hminus : t.minus with
  | false =>
      rw [SignedSummand.op, hminus, if_neg Bool.false_ne_true, coefficients?]
      simp only [Option.map_eq_bind]
      rfl
  | true =>
      rw [SignedSummand.op, hminus, if_pos rfl, coefficients?, t.summand.isAdditive_tree,
        if_neg Bool.false_ne_true]
      simp only [Option.map_eq_bind]
      rfl

theorem column_rest {rest : List SignedSummand} (h : ∀ t ∈ rest, t.summand.Readable vars)
    {e : Expr} {f : ℕ → ℤ} {col : WordVec} (he : r.coefficients? vars false e = some col)
    (hcol : r.Column (vars.length + 1) f col) :
    ∃ col', r.coefficients? vars false (rest.foldl (fun e t => .bin t.op e t.summand.tree) e) =
        some col' ∧
      r.Column (vars.length + 1)
        (fun i => f i + (rest.map (SignedSummand.coefficientAt vars i)).sum) col' := by
  induction rest generalizing e f col with
  | nil => exact ⟨col, he, by simpa using hcol⟩
  | cons t rest ih =>
      obtain ⟨ht, hrest⟩ := List.forall_mem_cons.mp h
      obtain ⟨v, hv, hcolv⟩ := column_tree (r := r) ht
      obtain ⟨col', hcol', hcolumn⟩ := ih hrest (e := .bin t.op e t.summand.tree)
        (by rw [coefficients?_bin, he, hv]; rfl) (hcol.add hcolv)
      exact ⟨col', hcol', by simpa [add_assoc] using hcolumn⟩

theorem coefficients?_rest_eq_none (rest : List SignedSummand) {e : Expr}
    (he : r.coefficients? vars false e = none) :
    r.coefficients? vars false (rest.foldl (fun e t => .bin t.op e t.summand.tree) e) = none := by
  induction rest generalizing e with
  | nil => exact he
  | cons t rest ih =>
      refine ih ?_
      rw [coefficients?_bin, he]
      rfl

/-- A sum is recognised, with its coefficients, unless it starts as in `-y*2`. -/
theorem affine?_tree {s : WrittenSum} (h : ∀ t ∈ s.summands, t.summand.Readable vars)
    (hs : s.startsWithSignedProduct = false) :
    ∃ col, r.affine? vars s.tree = some col ∧
      r.Column (vars.length + 1) (fun i => s.coefficientAt vars i) col := by
  obtain ⟨hfirst, hrest⟩ := List.forall_mem_cons.mp h
  obtain ⟨u, hu, hcolumn⟩ := column_firstTree hfirst hs
  obtain ⟨col, hcol, hall⟩ := column_rest hrest hu hcolumn
  exact ⟨col, hcol, by simpa [WrittenSum.coefficientAt, WrittenSum.summands] using hall⟩

theorem affine?_tree_eq_none {s : WrittenSum} (hs : s.startsWithSignedProduct = true) :
    r.affine? vars s.tree = none := by
  obtain ⟨hminus, hfirst⟩ := (Bool.and_eq_true_iff).mp hs
  refine coefficients?_rest_eq_none s.rest ?_
  rw [WrittenSum.firstTree, if_pos hminus]
  cases ht : s.first.summand with
  | timesLiteral x digits => rfl
  | literal | name | literalTimes => simp [ht] at hfirst

end

/-- An assignment of a written sum to a tracked variable can be parsed, and its
one matrix has the signed coefficients of the sum in the column of the target,
reduced to the width, and the columns of the identity elsewhere. Only a sum that
starts with a minus sign and a product with the variable first is not recognised;
it has the two matrices that set the target to 0 and to 1. -/
theorem statementMatrices_writtenSum (r : WordRing) {vars : List String} {text x : String} {k : ℕ}
    (hx : slot? vars x = some k) {s : WrittenSum}
    (hscan : (Source.ofString text).ScansTo (.name x :: .op .assign :: s.tokens))
    (hs : ∀ t ∈ s.summands, t.summand.Readable vars) :
    ∃ e, Expr.parse text = .ok e ∧
      (s.startsWithSignedProduct = false → ∃ m, r.statementMatrices vars (some e) = [m] ∧
        m.Square (vars.length + 1) ∧
        (∀ i < vars.length + 1,
          ((m.entry i k).toNat : ℤ) = s.coefficientAt vars i % 2 ^ r.width) ∧
        ∀ i < vars.length + 1, ∀ j < vars.length + 1, j ≠ k →
          m.entry i j = if i = j then 1 else 0) ∧
      (s.startsWithSignedProduct = true → r.statementMatrices vars (some e) =
        [withColumn (vars.length + 1) k [], withColumn (vars.length + 1) k [1]]) := by
  have hderives : DerivesStatement (.name x :: .op .assign :: s.tokens)
      (.bin .assign (.var x) s.tree) :=
    .assign (.sum (.product (.unary (.primary (.name x)))))
      (.sum (WrittenSum.derives_tree fun t ht => (hs t ht).1))
  refine ⟨_, Expr.ofSource_eq_ok_iff.mpr ⟨_, hscan, hderives⟩, fun hstart => ?_, fun hstart => ?_⟩
  · obtain ⟨col, hcol, hcolumn⟩ := affine?_tree (r := r) hs hstart
    obtain ⟨l, -, rfl⟩ := slot?_eq_some hx
    refine ⟨withColumn (vars.length + 1) l.succ col, ?_, WordMatrix.square_ofFn _ _,
      fun i hi => ?_, fun i hi j hj hne => ?_⟩
    · simp [statementMatrices, Expr.assignment?, hx, hcol]
    · rw [withColumn, WordMatrix.entry_ofFn _ hi l.succ.isLt, if_pos rfl]
      exact hcolumn.toNat_eq hi
    · rw [withColumn, WordMatrix.entry_ofFn _ hi hj, if_neg hne]
  · simp [statementMatrices, Expr.assignment?, hx, affine?_tree_eq_none hstart]

/-- Modulo 256, a sum with both orders of a product, a repeated variable, and a
literal beyond the greatest number. -/
theorem statementMatrices_writtenSum_byte :
    ∃ (r : WordRing) (e : Expr) (m : WordMatrix), r.width = 8 ∧
      Expr.parse "x = -3*y + x*0xff - 2 + y - 18446744073709551615" = .ok e ∧
      r.statementMatrices ["x", "y"] (some e) = [m] ∧
      ((m.entry 0 1).toNat : ℤ) = 255 ∧ ((m.entry 1 1).toNat : ℤ) = 255 ∧
      ((m.entry 2 1).toNat : ℤ) = 254 ∧ m.entry 2 2 = 1 ∧ m.entry 0 2 = 0 := by
  let r := WordRing.ofBits 8 (by decide) (by decide)
  let s : WrittenSum := ⟨⟨true, .literalTimes ['3'] "y"⟩,
    [⟨false, .timesLiteral "x" "0xff".toList⟩, ⟨true, .literal ['2']⟩, ⟨false, .name "y"⟩,
      ⟨true, .literal "18446744073709551615".toList⟩]⟩
  have hscan : (Source.ofString "x = -3*y + x*0xff - 2 + y - 18446744073709551615").ScansTo
      (.name "x" :: .op .assign :: s.tokens) :=
    ⟨some ⟨1, 49⟩, by decide +kernel, by decide +kernel⟩
  have hx : slot? ["x", "y"] "x" = some 1 := by decide
  obtain ⟨e, he, hone, -⟩ := statementMatrices_writtenSum r hx hscan (by decide +kernel)
  obtain ⟨m, hm, -, hcolumn, hother⟩ := hone rfl
  refine ⟨r, e, m, rfl, he, hm, ?_, ?_, ?_, ?_, ?_⟩
  · exact (hcolumn 0 (by decide)).trans (by decide +kernel)
  · exact (hcolumn 1 (by decide)).trans (by decide +kernel)
  · exact (hcolumn 2 (by decide)).trans (by decide +kernel)
  · exact hother 2 (by decide) 2 (by decide) (by decide)
  · exact hother 0 (by decide) 2 (by decide) (by decide)

/-- Modulo 256, `x = -2*y` has the matrix that `x = -y*2` should have as well, but
the latter sets `x` free. -/
theorem statementMatrices_signed_product :
    ∃ (r : WordRing) (e e' : Expr), r.width = 8 ∧
      Expr.parse "x = -2*y" = .ok e ∧ Expr.parse "x = -y*2" = .ok e' ∧
      r.statementMatrices ["x", "y"] (some e) = [withColumn 3 1 [0, 0, 254]] ∧
      r.statementMatrices ["x", "y"] (some e') = [withColumn 3 1 [], withColumn 3 1 [1]] := by
  let r := WordRing.ofBits 8 (by decide) (by decide)
  refine ⟨r, .bin .assign (.var "x") (.bin .mul (.num (-2)) (.var "y")),
    .bin .assign (.var "x") (.bin .mul (.bin .mul (.num (-1)) (.var "y")) (.num 2)), rfl,
    ?_, ?_, ?_, ?_⟩
  · decide +kernel
  · decide +kernel
  · decide +kernel
  · decide +kernel

end WordRing

end AffineRelations
