import AffineRelations.Proofs.Transition

/-!
# Statements on rows of words

A run moves states as rows of words `(1, x_1, ..., x_n)`. Here the matrices of a
statement are followed down to these words. The matrix of an affine assignment
replaces the word of its variable by the word of the right side's value. Of the
two matrices for a right side that is not affine, one sets the variable to 0
and the other to 1, and their combinations with weights `1 - c` and `c` set it
to any word `c`. Nothing is assumed of the list of variables; a name that is
listed twice has the column of its first place.
-/
namespace AffineRelations.WordRing

/-- A row `(1, x_1, ..., x_n)` of reduced words. -/
structure IsState (r : WordRing) (n : ℕ) (s : WordVec) : Prop where
  length_eq : s.length = n + 1
  constant : s.getD 0 0 = 1
  reduced : r.ReducedVec s

/-- What a row holds for a variable, and zero for a variable without a column. -/
def reading (r : WordRing) (vars : List String) (s : WordVec) (x : String) : r.Elem :=
  match slot? vars x with
  | some k => r.value (s.getD k 0)
  | none => 0

variable (r : WordRing) {n : ℕ}

theorem reading_eq_coords {vars : List String} (s : WordVec) {x : String} {k : ℕ}
    (hx : slot? vars x = some k) (hk : k < vars.length + 1) :
    r.reading vars s x = r.coords (vars.length + 1) s ⟨k, hk⟩ := by
  rw [reading, hx, coords]

theorem coords_set {s : WordVec} (hs : s.length = n) {k : ℕ} (hk : k < n) (c : UInt64) :
    r.coords n (s.set k c) = Function.update (r.coords n s) ⟨k, hk⟩ (r.value c) := by
  funext i
  rw [Function.update_apply, coords, coords]
  by_cases hik : i = ⟨k, hk⟩
  · subst hik
    simp [hs, hk]
  · have hne : k ≠ i := fun h => hik (Fin.ext h.symm)
    simp [hik, List.getElem?_set_ne hne]

theorem reducedVec_set {s : WordVec} (hs : r.ReducedVec s) (k : ℕ) {c : UInt64}
    (hc : r.Reduced c) : r.ReducedVec (s.set k c) := by
  intro x hx
  rcases List.mem_or_eq_of_mem_set hx with hx | rfl
  · exact hs x hx
  · exact hc

theorem reducedVec_addVec (u v : WordVec) : r.ReducedVec (r.addVec u v) := by
  intro x hx
  obtain ⟨i, hi, rfl⟩ := List.getElem_of_mem hx
  simp only [addVec, List.getElem_zipWith]
  exact r.reduced_residue _

section
variable {r} {vars : List String} {s : WordVec} (hs : r.IsState vars.length s)

include hs

theorem IsState.coords_zero : r.coords (vars.length + 1) s 0 = 1 := by
  rw [coords, Fin.val_zero, hs.constant, value_one]

/-- A row that denotes a state with one place replaced is that row of words. -/
theorem IsState.eq_set {u : WordVec} (hu : u.length = vars.length + 1) (hred : r.ReducedVec u)
    (k : Fin (vars.length + 1)) {c : UInt64} (hc : r.Reduced c)
    (h : r.coords (vars.length + 1) u =
      Function.update (r.coords (vars.length + 1) s) k (r.value c)) : u = s.set k c := by
  refine r.coords_inj hu ((List.length_set).trans hs.length_eq) hred
    (r.reducedVec_set hs.reduced k hc) ?_
  rw [h, r.coords_set hs.length_eq k.isLt]

/-- A matrix with one column replaced sets the word of that column. -/
theorem IsState.vecMul_withColumn (k : Fin (vars.length + 1)) (col : WordVec) {a : r.Elem}
    (ha : r.coords (vars.length + 1) s ⬝ᵥ r.coords (vars.length + 1) col = a) :
    r.vecMul (withColumn (vars.length + 1) k col) s = .ok (s.set k (r.word a)) := by
  have hsquare : (withColumn (vars.length + 1) k col).Square (vars.length + 1) :=
    WordMatrix.square_ofFn _ _
  rw [vecMul, if_pos (hs.length_eq.trans hsquare.rows_eq.symm)]
  refine congrArg Except.ok (hs.eq_set ?_ (r.reducedVec_apply _ _) k (r.reduced_word a) ?_)
  · rw [length_apply, hsquare.cols_eq]
  · rw [r.coords_apply hsquare.rows_eq hsquare.cols_eq,
      r.vecMul_withColumn k.isLt, ha, value_word]

/-- With the weights `1 - c` and `c`, the rows that have 0 and 1 in a place
combine to the row that has `c` there. -/
theorem IsState.combination (k : Fin (vars.length + 1)) (c : UInt64) :
    r.addVec (r.scale (s.set k (r.word 0)) (r.sub 1 c)) (r.scale (s.set k (r.word 1)) c) =
      s.set k (r.residue c) := by
  have hlen (x y : UInt64) : (r.scale (s.set k x) y).length = vars.length + 1 := by
    rw [length_scale, List.length_set, hs.length_eq]
  refine hs.eq_set ?_ (r.reducedVec_addVec _ _) k (r.reduced_residue c) ?_
  · rw [addVec, List.length_zipWith, hlen, hlen, Nat.min_self]
  · rw [r.coords_addVec ((hlen _ _).trans (hlen _ _).symm), coords_scale, coords_scale,
      r.coords_set hs.length_eq k.isLt, r.coords_set hs.length_eq k.isLt, value_word, value_word,
      value_sub, value_one, value_residue]
    exact (r.update_eq_combination _ k _).symm

end

/-- The matrices of a statement do to every row of words what the statement
says. -/
theorem statementMatrices_faithful (r : WordRing) (vars : List String) (stmt : Option Expr) :
    (∀ x e k, stmt = some (.bin .assign (.var x) e) → slot? vars x = some k →
      (r.affine? vars e).isSome → ∃ m, r.statementMatrices vars stmt = [m] ∧
        ∀ s, r.IsState vars.length s → ∃ c, e.value? r (r.reading vars s) = some c ∧
          r.vecMul m s = .ok (s.set k (r.word c))) ∧
    (∀ x e k, stmt = some (.bin .assign (.var x) e) → slot? vars x = some k →
      r.affine? vars e = none → ∃ m₀ m₁, r.statementMatrices vars stmt = [m₀, m₁] ∧
        ∀ s, r.IsState vars.length s → ∃ u₀ u₁, r.vecMul m₀ s = .ok u₀ ∧ r.vecMul m₁ s = .ok u₁ ∧
          ∀ c, r.addVec (r.scale u₀ (r.sub 1 c)) (r.scale u₁ c) = s.set k (r.residue c)) ∧
    ((∀ x e, stmt = some (.bin .assign (.var x) e) → slot? vars x = none) →
      r.statementMatrices vars stmt = [identityOf (vars.length + 1)]) := by
  refine ⟨?_, ?_, ?_⟩
  · rintro x e k rfl hslot haffine
    obtain ⟨col, hcol⟩ := Option.isSome_iff_exists.mp haffine
    obtain ⟨l, -, rfl⟩ := slot?_eq_some hslot
    refine ⟨withColumn (vars.length + 1) l.succ col, ?_, fun s hs => ?_⟩
    · simp [statementMatrices, Expr.assignment?, hslot, hcol]
    · obtain ⟨-, c, hc, hdot⟩ := r.coefficients?_dot hcol hs.coords_zero
        fun y j hy => r.reading_eq_coords s hy j.succ.isLt
      exact ⟨c, hc, hs.vecMul_withColumn l.succ col hdot⟩
  · rintro x e k rfl hslot haffine
    obtain ⟨l, -, rfl⟩ := slot?_eq_some hslot
    refine ⟨withColumn (vars.length + 1) l.succ [], withColumn (vars.length + 1) l.succ [1], ?_,
      fun s hs => ?_⟩
    · simp [statementMatrices, Expr.assignment?, hslot, haffine]
    · have hone : r.coords (vars.length + 1) s ⬝ᵥ r.coords (vars.length + 1) [1] = 1 := by
        rw [dot_one, hs.coords_zero]
      exact ⟨_, _, hs.vecMul_withColumn l.succ [] (r.dot_nil _),
        hs.vecMul_withColumn l.succ [1] hone, hs.combination l.succ⟩
  · intro hno
    rcases r.statementMatrices_cases vars stmt with ⟨-, heq⟩ | ⟨k, e, hstmt, -⟩
    · exact heq
    · exact (slot?_eq_none.mp (hno _ _ hstmt) (List.getElem_mem k.isLt)).elim

/-- Over the words of three bits, `x = x + x - 1` takes 5 to 1, and `y = x * y`
has two matrices that give `y` every word. -/
theorem statementMatrices_faithful_three_bits :
    ∃ r : WordRing, r.width = 3 ∧
      (∃ m, r.statementMatrices ["x", "y"] (some (.bin .assign (.var "x")
          (.bin .sub (.bin .add (.var "x") (.var "x")) (.num 1)))) = [m] ∧
        r.vecMul m [1, 5, 3] = .ok [1, 1, 3]) ∧
      ∃ m₀ m₁ u₀ u₁, r.statementMatrices ["x", "y"] (some (.bin .assign (.var "y")
          (.bin .mul (.var "x") (.var "y")))) = [m₀, m₁] ∧
        r.vecMul m₀ [1, 5, 3] = .ok u₀ ∧ r.vecMul m₁ [1, 5, 3] = .ok u₁ ∧
        ∀ c, r.addVec (r.scale u₀ (r.sub 1 c)) (r.scale u₁ c) = [1, 5, r.residue c] := by
  let r := WordRing.ofBits 3 (by decide) (by decide)
  have hstate : r.IsState 2 [1, 5, 3] := ⟨rfl, rfl, by decide⟩
  refine ⟨r, rfl, ?_, ?_⟩
  · obtain ⟨m, hm, hall⟩ := (statementMatrices_faithful r ["x", "y"]
      (some (.bin .assign (.var "x")
        (.bin .sub (.bin .add (.var "x") (.var "x")) (.num 1))))).1 "x" _ 1 rfl rfl (by decide)
    obtain ⟨c, hc, hstep⟩ := hall _ hstate
    obtain rfl : c = 1 := Option.some.inj (hc.symm.trans (by decide))
    exact ⟨m, hm, hstep⟩
  · obtain ⟨m₀, m₁, hm, hall⟩ := (statementMatrices_faithful r ["x", "y"]
      (some (.bin .assign (.var "y") (.bin .mul (.var "x") (.var "y"))))).2.1 "y" _ 2 rfl rfl
        (by decide)
    obtain ⟨u₀, u₁, h₀, h₁, hcomb⟩ := hall _ hstate
    exact ⟨m₀, m₁, u₀, u₁, hm, h₀, h₁, hcomb⟩

end AffineRelations.WordRing
