import AffineRelations.Proofs.Expr.Grammar
import AffineRelations.Proofs.Transition

/-!
# Arithmetic in the source and in the tree

Numbers are kept as signed words. A literal from `2^63` on becomes negative, a
sign before a number wraps around, and a sign before anything else becomes a
factor of `-1`. All this is exact modulo `2^64` and so at every width: the value
of the tree is the value that the source has over the integers, reduced.
-/
namespace AffineRelations

/-- Arithmetic as it is written, with literals below `2^64`. -/
inductive Arithmetic : Phrase → Type
  | int (digits : List Char) (hlt : (Literal.ofText digits).value < 18446744073709551616) :
      Arithmetic .primary
  | name (x : String) : Arithmetic .primary
  | paren (s : Arithmetic .sum) : Arithmetic .primary
  | primary (s : Arithmetic .primary) : Arithmetic .unary
  | minus (s : Arithmetic .unary) : Arithmetic .unary
  | unary (s : Arithmetic .unary) : Arithmetic .product
  | times (s : Arithmetic .product) (t : Arithmetic .unary) : Arithmetic .product
  | product (s : Arithmetic .product) : Arithmetic .sum
  | plus (s : Arithmetic .sum) (t : Arithmetic .product) : Arithmetic .sum
  | less (s : Arithmetic .sum) (t : Arithmetic .product) : Arithmetic .sum

namespace Arithmetic

def tokens {p : Phrase} : Arithmetic p → List Token
  | .int digits _ => [.int digits]
  | .name x => [.name x]
  | .paren s => .leftParen :: (s.tokens ++ [.rightParen])
  | .primary s | .unary s | .product s => s.tokens
  | .minus s => .op .sub :: s.tokens
  | .times s t => s.tokens ++ .op .mul :: t.tokens
  | .plus s t => s.tokens ++ .op .add :: t.tokens
  | .less s t => s.tokens ++ .op .sub :: t.tokens

/-- The value over the integers. -/
def value (σ : String → ℤ) {p : Phrase} : Arithmetic p → ℤ
  | .int digits _ => (Literal.ofText digits).value
  | .name x => σ x
  | .paren s | .primary s | .unary s | .product s => s.value σ
  | .minus s => -s.value σ
  | .times s t => s.value σ * t.value σ
  | .plus s t => s.value σ + t.value σ
  | .less s t => s.value σ - t.value σ

/-- The tree that the grammar builds. -/
def tree {p : Phrase} : Arithmetic p → Expr
  | .int digits _ => .num (Int64.ofNat (Literal.ofText digits).value)
  | .name x => .var x
  | .paren s | .primary s | .unary s | .product s => s.tree
  | .minus s => s.tree.negate
  | .times s t => .bin .mul s.tree t.tree
  | .plus s t => .bin .add s.tree t.tree
  | .less s t => .bin .sub s.tree t.tree

theorem derives_tree {p : Phrase} (s : Arithmetic p) : Derives p s.tokens s.tree := by
  induction s with
  | int digits hlt => exact .int hlt
  | name x => exact .name x
  | paren s ih => exact .paren (.sum ih)
  | primary s ih => exact .primary ih
  | minus s ih => exact ih.negate
  | unary s ih => exact .unary ih
  | times s t ihs iht => exact .multiply ihs rfl iht
  | product s ih => exact .product ih
  | plus s t ihs iht => exact .add ihs rfl iht
  | less s t ihs iht => exact .add ihs rfl iht

end Arithmetic

section Value
variable {r : WordRing}

theorem Expr.value?_negate {σ : String → r.Elem} {e : Expr} {c : r.Elem}
    (h : e.value? r σ = some c) : e.negate.value? r σ = some (-c) := by
  have hfactor : (Expr.bin .mul (.num (-1)) e).value? r σ = some (-c) := by
    simp [Expr.value?, h]
  cases e with
  | num n =>
      obtain rfl := Option.some.inj h
      rw [Expr.negate, Expr.value?, r.intCast_toInt_neg]
  | var | bin | absent => exact hfactor

/-- The tree has the value of what is written. -/
theorem Arithmetic.value?_tree {p : Phrase} (s : Arithmetic p) (σ : String → ℤ) :
    s.tree.value? r (fun x => (σ x : r.Elem)) = some (s.value σ : r.Elem) := by
  induction s with
  | int digits hlt =>
      rw [tree, Expr.value?, r.intCast_toInt_ofNat, value, Int.cast_natCast]
  | name x => rfl
  | paren s ih => exact ih
  | primary s ih => exact ih
  | minus s ih =>
      rw [tree, Expr.value?_negate ih, value, Int.cast_neg]
  | unary s ih => exact ih
  | times s t ihs iht => simp [tree, Expr.value?, ihs, iht, value]
  | product s ih => exact ih
  | plus s t ihs iht => simp [tree, Expr.value?, ihs, iht, value]
  | less s t ihs iht => simp [tree, Expr.value?, ihs, iht, value]

end Value

namespace Expr

/-- The word that an expression evaluates to, computed word by word. -/
def word? (r : WordRing) (σ : String → UInt64) : Expr → Option UInt64
  | .num c => some (r.ofInt64 c)
  | .var x => some (σ x)
  | .bin .add a b => do return r.add (← word? r σ a) (← word? r σ b)
  | .bin .sub a b => do return r.sub (← word? r σ a) (← word? r σ b)
  | .bin .mul a b => do return r.mul (← word? r σ a) (← word? r σ b)
  | _ => none

variable {r : WordRing} {σ : String → UInt64}

/-- An operation on words that does what one on elements does. -/
theorem map_word_bind {f : UInt64 → UInt64 → UInt64} {g : r.Elem → r.Elem → r.Elem}
    (hreduced : ∀ u v, r.Reduced (f u v))
    (hvalue : ∀ u v, r.value (f u v) = g (r.value u) (r.value v)) (x y : Option r.Elem) :
    (do return f (← x.map r.word) (← y.map r.word)) =
      (do return g (← x) (← y) : Option r.Elem).map r.word := by
  cases x with
  | none => rfl
  | some a =>
      cases y with
      | none => rfl
      | some b =>
          refine congrArg some (r.eq_word (hreduced _ _) ?_)
          rw [hvalue, r.value_word, r.value_word]

theorem word?_num (c : Int64) : word? r σ (.num c) = some (r.word (c.toInt : r.Elem)) :=
  congrArg some (r.eq_word (r.reduced_residue _) (r.value_ofInt64 c))

/-- Evaluation with reduced words computes the word of the value. -/
theorem word?_eq (hσ : ∀ x, r.Reduced (σ x)) (e : Expr) :
    e.word? r σ = (e.value? r fun x => r.value (σ x)).map r.word := by
  induction e with
  | num c => exact word?_num c
  | var x => exact congrArg some (r.eq_word (hσ x) rfl)
  | absent => rfl
  | bin op a b iha ihb =>
      cases op with
      | add =>
          rw [word?, iha, ihb]
          exact map_word_bind (fun _ _ => r.reduced_residue _) r.value_add _ _
      | sub =>
          rw [word?, iha, ihb]
          exact map_word_bind (fun _ _ => r.reduced_residue _) r.value_sub _ _
      | mul =>
          rw [word?, iha, ihb]
          exact map_word_bind (fun _ _ => r.reduced_residue _) r.value_mul _ _
      | _ => rfl

/-- Arithmetic of literals below `2^64`, names, signs, sums, differences,
products and parentheses can be parsed, and the tree is exact at every width.
With reduced words for the names, it evaluates to the value that the text has
over the integers, reduced modulo `2^w`. -/
theorem word?_parse_arithmetic (s : Arithmetic .sum) {bytes : List UInt8}
    (hscan : (Source.ofBytes bytes).ScansTo s.tokens) :
    ∃ e, parseBytes bytes = .ok e ∧
      ∀ (r : WordRing) (σ : String → UInt64), (∀ x, r.Reduced (σ x)) →
        ∃ u, e.word? r σ = some u ∧
          (u.toNat : ℤ) = s.value (fun x => (σ x).toNat) % 2 ^ r.width := by
  refine ⟨s.tree, ofSource_eq_ok_iff.mpr ⟨_, hscan, .bare (.sum s.derives_tree)⟩, ?_⟩
  intro r σ hσ
  have hvalue := s.value?_tree (r := r) fun x => ((σ x).toNat : ℤ)
  simp only [Int.cast_natCast] at hvalue
  refine ⟨r.word _, (word?_eq hσ s.tree).trans (congrArg (Option.map r.word) hvalue), ?_⟩
  exact r.toNat_word_intCast _

/-- Modulo 32, with a sign before a sign before a literal that is negative as a
signed word, a sign before parentheses, and the greatest literal. -/
theorem word?_parse_signs : ∃ (r : WordRing) (e : Expr) (u : UInt64), r.width = 5 ∧
    parse "--9223372036854775808 - -(x*0xff) * 18446744073709551615" = .ok e ∧
    e.word? r (fun _ => 3) = some u ∧
    (u.toNat : ℤ) = (2 ^ 63 - -(3 * 255) * (2 ^ 64 - 1)) % 32 := by
  let r := WordRing.ofBits 5 (by decide) (by decide)
  let least : Arithmetic .unary := .primary (.int "9223372036854775808".toList (by decide +kernel))
  let greatest : Arithmetic .unary :=
    .primary (.int "18446744073709551615".toList (by decide +kernel))
  let factor : Arithmetic .unary := .primary (.int "0xff".toList (by decide +kernel))
  let inner : Arithmetic .sum := .product (.times (.unary (.primary (.name "x"))) factor)
  let s : Arithmetic .sum := .less (.product (.unary (.minus (.minus least))))
    (.times (.unary (.minus (.primary (.paren inner)))) greatest)
  have hscan : (Source.ofBytes
      "--9223372036854775808 - -(x*0xff) * 18446744073709551615".toUTF8.data.toList).ScansTo
        s.tokens :=
    ⟨some ⟨1, 57⟩, by decide +kernel, by decide +kernel⟩
  obtain ⟨e, hparse, hword⟩ := word?_parse_arithmetic s hscan
  obtain ⟨u, hu, hvalue⟩ := hword r (fun _ => 3) (fun _ => by decide)
  rw [parseBytes_toUTF8] at hparse
  exact ⟨r, e, u, rfl, hparse, hu, hvalue.trans (by decide +kernel)⟩

end Expr

end AffineRelations
