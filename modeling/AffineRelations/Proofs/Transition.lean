import AffineRelations.Proofs.Word.MatrixView
import AffineRelations.Proofs.Word.Signed
import AffineRelations.Transition

/-!
# What statements do to states

`Executes` gives statements a meaning on states, which hold an element of the
ring for each variable. An assignment that is recognised as affine stores the
value of its right side, and any other assignment stores an arbitrary element.
A state is seen by the matrices as the row vector `(1, x_1, ..., x_n)`. An
affine assignment has one matrix, and it takes the row of each state to the row
of the next. If the right side is not affine, the rows of all next states are
affine combinations of those for the values 0 and 1.
-/
namespace AffineRelations

/-- The value of an expression made by sums, differences and products. -/
def Expr.value? (r : WordRing) (σ : String → r.Elem) : Expr → Option r.Elem
  | .num c => some (c.toInt : r.Elem)
  | .var x => some (σ x)
  | .bin .add a b => do return (← value? r σ a) + (← value? r σ b)
  | .bin .sub a b => do return (← value? r σ a) - (← value? r σ b)
  | .bin .mul a b => do return (← value? r σ a) * (← value? r σ b)
  | _ => none

/-- The steps from state to state that a statement allows. -/
inductive Executes (r : WordRing) (vars : List String) :
    Option Expr → (String → r.Elem) → (String → r.Elem) → Prop
  /-- Only an assignment to a tracked variable changes the state. -/
  | stay {stmt : Option Expr} {σ : String → r.Elem} :
      (∀ x e, stmt = some (.bin .assign (.var x) e) → x ∉ vars) → Executes r vars stmt σ σ
  | assign {x : String} {e : Expr} {σ : String → r.Elem} {c : r.Elem} :
      x ∈ vars → (r.affine? vars e).isSome → e.value? r σ = some c →
      Executes r vars (some (.bin .assign (.var x) e)) σ (Function.update σ x c)
  | havoc {x : String} {e : Expr} {σ : String → r.Elem} (c : r.Elem) :
      x ∈ vars → r.affine? vars e = none →
      Executes r vars (some (.bin .assign (.var x) e)) σ (Function.update σ x c)

theorem slot?_eq_some {vars : List String} {x : String} {i : ℕ} (h : slot? vars x = some i) :
    ∃ k : Fin vars.length, vars[k] = x ∧ i = k.succ := by
  obtain ⟨k, hk, rfl⟩ := Option.map_eq_some_iff.mp h
  obtain ⟨hlt, hget, -⟩ := List.idxOf?_eq_some_iff.mp hk
  exact ⟨⟨k, hlt⟩, hget, rfl⟩

theorem slot?_eq_none {vars : List String} {x : String} : slot? vars x = none ↔ x ∉ vars := by
  rw [slot?, Option.map_eq_none_iff, List.idxOf?_eq_none_iff]

theorem assignment?_eq_some {stmt : Option Expr} {x : String} {e : Expr} :
    stmt.bind Expr.assignment? = some (x, e) ↔ stmt = some (.bin .assign (.var x) e) := by
  constructor
  · intro h
    obtain ⟨s, rfl, hs⟩ := Option.bind_eq_some_iff.mp h
    rw [Expr.assignment?.eq_def] at hs
    split at hs
    · cases hs
      rfl
    · cases hs
  · rintro rfl
    rfl

namespace WordRing
variable (r : WordRing) {n : ℕ}

theorem coords_term {i : ℕ} (hi : i < n) (c : Int64) (negative : Bool) :
    r.coords n (r.term n i c negative) =
      Pi.single ⟨i, hi⟩ (if negative then -(c.toInt : r.Elem) else c.toInt) := by
  funext j
  rw [coords, Pi.single_apply]
  by_cases hj : (j : ℕ) = i
  · subst hj
    cases negative <;> simp [term, value_ofInt64]
  · have hne : j ≠ ⟨i, hi⟩ := fun h => hj (congrArg Fin.val h)
    simp [term, hj, hne]

theorem coords_addVec {u v : WordVec} (h : u.length = v.length) :
    r.coords n (r.addVec u v) = r.coords n u + r.coords n v := by
  funext i
  rw [Pi.add_apply]
  simp only [coords]
  by_cases hi : (i : ℕ) < u.length
  · have hv : (i : ℕ) < v.length := h ▸ hi
    simp [addVec, hi, hv]
  · have hv : ¬(i : ℕ) < v.length := h ▸ hi
    simp [addVec, hi, hv]

/-- The row vector of a state. -/
def augmented (vars : List String) (σ : String → r.Elem) : Fin (vars.length + 1) → r.Elem :=
  Fin.cons 1 fun k => σ vars[k]

@[simp] theorem augmented_zero (vars : List String) (σ : String → r.Elem) :
    r.augmented vars σ 0 = 1 := rfl

@[simp] theorem augmented_succ (vars : List String) (σ : String → r.Elem)
    (k : Fin vars.length) : r.augmented vars σ k.succ = σ vars[k] := rfl

theorem augmented_origin (vars : List String) :
    r.augmented vars (fun _ => 0) = Pi.single 0 1 := by
  funext j
  refine Fin.cases ?_ (fun k => ?_) j
  · simp
  · simp

theorem dot_term (x : Fin n → r.Elem) (i : Fin n) (c : Int64) (negative : Bool) :
    x ⬝ᵥ r.coords n (r.term n i c negative) = if negative then -(c.toInt * x i) else c.toInt * x i := by
  rw [r.coords_term i.isLt, dotProduct_single]
  cases negative <;> simp [mul_comm]

theorem value?_of_factor? {a b : Expr} {c : Int64} {x : String}
    (h : factor? a b = some (c, x)) (σ : String → r.Elem) :
    (Expr.bin .mul a b).value? r σ = some (c.toInt * σ x) := by
  rw [factor?.eq_def] at h
  split at h
  · cases h
    rfl
  · cases h
    simp [Expr.value?, mul_comm]
  · cases h

/-- The coefficients of an expression give its value in every row that starts
with 1 and holds the variables' values in their columns. -/
theorem coefficients?_dot {vars : List String} {negative : Bool} {e : Expr} {col : WordVec}
    (h : r.coefficients? vars negative e = some col) {σ : String → r.Elem}
    {x : Fin (vars.length + 1) → r.Elem} (hone : x 0 = 1)
    (hσ : ∀ (y : String) (k : Fin vars.length), slot? vars y = some k.succ → σ y = x k.succ) :
    col.length = vars.length + 1 ∧ ∃ c, e.value? r σ = some c ∧
      x ⬝ᵥ r.coords (vars.length + 1) col = if negative then -c else c := by
  have hterm (i : ℕ) (c : Int64) (b : Bool) : (r.term (vars.length + 1) i c b).length =
      vars.length + 1 := by simp [term]
  induction e generalizing negative col with
  | absent => simp [coefficients?] at h
  | num c =>
      rw [coefficients?] at h
      obtain rfl := Option.some.inj h
      refine ⟨hterm 0 c _, c.toInt, rfl, ?_⟩
      simpa [hone] using r.dot_term x 0 c negative
  | var y =>
      rw [coefficients?] at h
      obtain ⟨i, hi, rfl⟩ := Option.map_eq_some_iff.mp h
      obtain ⟨k, -, rfl⟩ := slot?_eq_some hi
      refine ⟨hterm _ 1 _, σ y, rfl, ?_⟩
      simpa [hσ y k hi] using r.dot_term x k.succ 1 negative
  | bin op a b iha ihb =>
      cases op with
      | add =>
          simp only [coefficients?, Option.bind_eq_bind, Option.bind_eq_some_iff,
            Option.pure_def, Option.some.injEq] at h
          obtain ⟨u, hu, v, hv, rfl⟩ := h
          obtain ⟨hulen, p, hp, hpu⟩ := iha hu
          obtain ⟨hvlen, q, hq, hqv⟩ := ihb hv
          refine ⟨by simp [addVec, hulen, hvlen], p + q, by simp [Expr.value?, hp, hq], ?_⟩
          rw [r.coords_addVec (hulen.trans hvlen.symm), dotProduct_add, hpu, hqv]
          cases negative <;> simp [add_comm]
      | sub =>
          rw [coefficients?] at h
          split_ifs at h with hadd
          simp only [Option.bind_eq_bind, Option.bind_eq_some_iff, Option.pure_def,
            Option.some.injEq] at h
          obtain ⟨u, hu, v, hv, rfl⟩ := h
          obtain ⟨hulen, p, hp, hpu⟩ := iha hu
          obtain ⟨hvlen, q, hq, hqv⟩ := ihb hv
          refine ⟨by simp [addVec, hulen, hvlen], p - q, by simp [Expr.value?, hp, hq], ?_⟩
          rw [r.coords_addVec (hulen.trans hvlen.symm), dotProduct_add, hpu, hqv]
          cases negative <;> simp [sub_eq_add_neg, add_comm]
      | mul =>
          simp only [coefficients?, Option.bind_eq_bind, Option.bind_eq_some_iff,
            Option.pure_def, Option.some.injEq] at h
          obtain ⟨⟨c, y⟩, hfactor, i, hi, rfl⟩ := h
          obtain ⟨k, -, rfl⟩ := slot?_eq_some hi
          refine ⟨hterm _ c _, c.toInt * σ y, value?_of_factor? r hfactor σ, ?_⟩
          simpa [hσ y k hi] using r.dot_term x k.succ c negative
      | _ => simp [coefficients?] at h

/-- The coefficients of an expression give its value in every state. -/
theorem coefficients?_spec {vars : List String} {negative : Bool} {e : Expr} {col : WordVec}
    (h : r.coefficients? vars negative e = some col) (σ : String → r.Elem) :
    col.length = vars.length + 1 ∧ ∃ c, e.value? r σ = some c ∧
      r.augmented vars σ ⬝ᵥ r.coords (vars.length + 1) col = if negative then -c else c := by
  refine r.coefficients?_dot h (r.augmented_zero vars σ) fun y k hk => ?_
  obtain ⟨l, rfl, hl⟩ := slot?_eq_some hk
  rw [Fin.succ_inj.mp (Fin.ext hl), augmented_succ]

theorem vecMul_withColumn {k : ℕ} (hk : k < n) (col : WordVec) (x : Fin n → r.Elem) :
    Matrix.vecMul x (r.view n n (withColumn n k col)) =
      Function.update x ⟨k, hk⟩ (x ⬝ᵥ r.coords n col) := by
  funext j
  rw [Function.update_apply, withColumn, view_ofFn, Matrix.vecMul]
  split_ifs with hj
  · subst hj
    simp [dotProduct, coords]
  · have hne : (j : ℕ) ≠ k := fun h => hj (Fin.ext h)
    have hcol : (fun i => Matrix.of (fun (i j : Fin n) => r.value (if (j : ℕ) = k then
        col.getD i 0 else if (i : ℕ) = j then 1 else 0)) i j) = Pi.single j 1 := by
      funext i
      rw [Matrix.of_apply, Pi.single_apply, if_neg hne]
      by_cases hij : i = j
      · simp [hij]
      · simp [hij, Fin.val_ne_of_ne hij]
    rw [hcol, dotProduct_single_one]

theorem augmented_update {vars : List String} (hvars : vars.Nodup) (σ : String → r.Elem)
    (k : Fin vars.length) (c : r.Elem) :
    r.augmented vars (Function.update σ vars[k] c) =
      Function.update (r.augmented vars σ) k.succ c := by
  rw [augmented, augmented, ← Fin.cons_update]
  congr 1
  funext j
  have hinj : vars[j] = vars[k] ↔ j = k := by
    rw [Fin.ext_iff]
    exact hvars.getElem_inj_iff
  simp only [Function.update_apply, hinj]

/-- Any value in a place is an affine combination of the values 0 and 1. -/
theorem update_eq_combination (x : Fin n → r.Elem) (k : Fin n) (c : r.Elem) :
    Function.update x k c =
      (1 - c) • Function.update x k 0 + c • Function.update x k 1 := by
  funext j
  simp only [Pi.add_apply, Pi.smul_apply, smul_eq_mul, Function.update_apply]
  split_ifs
  · ring
  · ring

theorem augmented_update_eq {vars : List String} (hvars : vars.Nodup) (σ : String → r.Elem)
    (k : Fin vars.length) (c : r.Elem) :
    r.augmented vars (Function.update σ vars[k] c) =
      (1 - c) • r.augmented vars (Function.update σ vars[k] 0) +
        c • r.augmented vars (Function.update σ vars[k] 1) := by
  simp only [r.augmented_update hvars]
  exact r.update_eq_combination _ k.succ c

/-- The matrix that replaces a variable's column sets the variable. -/
theorem augmented_vecMul_withColumn {vars : List String} (hvars : vars.Nodup)
    (σ : String → r.Elem) (k : Fin vars.length) (col : WordVec) :
    Matrix.vecMul (r.augmented vars σ)
        (r.view _ _ (withColumn (vars.length + 1) k.succ col)) =
      r.augmented vars (Function.update σ vars[k]
        (r.augmented vars σ ⬝ᵥ r.coords (vars.length + 1) col)) := by
  rw [r.vecMul_withColumn k.succ.isLt, r.augmented_update hvars]

theorem dot_nil (x : Fin n → r.Elem) : x ⬝ᵥ r.coords n [] = 0 := by
  have hzero : r.coords n [] = 0 := by
    funext i
    simp [coords]
  rw [hzero, dotProduct_zero]

theorem dot_one (x : Fin (n + 1) → r.Elem) : x ⬝ᵥ r.coords (n + 1) [1] = x 0 := by
  have hone : r.coords (n + 1) [1] = Pi.single 0 1 := by
    funext i
    refine Fin.cases ?_ (fun k => ?_) i
    · simp [coords]
    · simp [coords]
  rw [hone, dotProduct_single_one]

/-- The three kinds of statements and their matrices. -/
theorem statementMatrices_cases (vars : List String) (stmt : Option Expr) :
    ((∀ x e, stmt = some (.bin .assign (.var x) e) → x ∉ vars) ∧
        r.statementMatrices vars stmt = [identityOf (vars.length + 1)]) ∨
      ∃ (k : Fin vars.length) (e : Expr), stmt = some (.bin .assign (.var vars[k]) e) ∧
        ((∃ col, r.affine? vars e = some col ∧
            r.statementMatrices vars stmt = [withColumn (vars.length + 1) k.succ col]) ∨
          (r.affine? vars e = none ∧ r.statementMatrices vars stmt =
            [withColumn (vars.length + 1) k.succ [],
              withColumn (vars.length + 1) k.succ [1]])) := by
  rw [statementMatrices]
  cases hassign : stmt.bind Expr.assignment? with
  | none =>
      refine .inl ⟨?_, rfl⟩
      intro x e hstmt
      rw [assignment?_eq_some.mpr hstmt] at hassign
      cases hassign
  | some target =>
      obtain ⟨x, e⟩ := target
      obtain rfl := assignment?_eq_some.mp hassign
      dsimp only
      cases hslot : slot? vars x with
      | none =>
          refine .inl ⟨?_, rfl⟩
          rintro x' e' ⟨⟩
          exact slot?_eq_none.mp hslot
      | some i =>
          obtain ⟨k, rfl, rfl⟩ := slot?_eq_some hslot
          refine .inr ⟨k, e, rfl, ?_⟩
          cases haffine : r.affine? vars e with
          | some col => exact .inl ⟨col, rfl, rfl⟩
          | none => exact .inr ⟨rfl, rfl⟩

theorem square_statementMatrices {vars : List String} {stmt : Option Expr}
    {m : WordMatrix} (h : m ∈ r.statementMatrices vars stmt) : m.Square (vars.length + 1) := by
  rcases r.statementMatrices_cases vars stmt with
    ⟨-, heq⟩ | ⟨k, e, -, ⟨col, -, heq⟩ | ⟨-, heq⟩⟩
  · rw [heq, List.mem_singleton] at h
    exact h ▸ WordMatrix.square_ofFn _ _
  · rw [heq, List.mem_singleton] at h
    exact h ▸ WordMatrix.square_ofFn _ _
  · rw [heq, List.mem_pair] at h
    rcases h with rfl | rfl
    · exact WordMatrix.square_ofFn _ _
    · exact WordMatrix.square_ofFn _ _

/-- Every matrix of a statement takes the row of a state to that of a next
state. -/
theorem exists_executes_of_mem {vars : List String} (hvars : vars.Nodup) {stmt : Option Expr}
    {m : WordMatrix} (h : m ∈ r.statementMatrices vars stmt) (σ : String → r.Elem) :
    ∃ σ', Executes r vars stmt σ σ' ∧
      Matrix.vecMul (r.augmented vars σ) (r.view _ _ m) = r.augmented vars σ' := by
  rcases r.statementMatrices_cases vars stmt with
    ⟨hno, heq⟩ | ⟨k, e, rfl, ⟨col, haffine, heq⟩ | ⟨haffine, heq⟩⟩
  · rw [heq, List.mem_singleton] at h
    refine ⟨σ, .stay hno, ?_⟩
    rw [h, view_identityOf, Matrix.vecMul_one]
  · rw [heq, List.mem_singleton] at h
    obtain ⟨-, c, hc, hcol⟩ := r.coefficients?_spec haffine σ
    refine ⟨_, .assign (List.getElem_mem k.isLt) (by simp [haffine]) hc, ?_⟩
    rw [h, r.augmented_vecMul_withColumn hvars, hcol]
    rfl
  · rw [heq, List.mem_pair] at h
    have hmem : vars[k] ∈ vars := List.getElem_mem k.isLt
    rcases h with rfl | rfl
    · refine ⟨_, .havoc 0 hmem haffine, ?_⟩
      rw [r.augmented_vecMul_withColumn hvars, dot_nil]
    · refine ⟨_, .havoc 1 hmem haffine, ?_⟩
      rw [r.augmented_vecMul_withColumn hvars, dot_one, augmented_zero]

/-- The row of a next state is a combination of what the matrices make of the
row of the state. -/
theorem augmented_mem_span {vars : List String} (hvars : vars.Nodup) {stmt : Option Expr}
    {σ σ' : String → r.Elem} (h : Executes r vars stmt σ σ') :
    r.augmented vars σ' ∈ Submodule.span r.Elem {x | ∃ m ∈ r.statementMatrices vars stmt,
      x = Matrix.vecMul (r.augmented vars σ) (r.view _ _ m)} := by
  rcases r.statementMatrices_cases vars stmt with
    ⟨hno, heq⟩ | ⟨k, e, rfl, ⟨col, haffine, heq⟩ | ⟨haffine, heq⟩⟩
  · have hsame : σ' = σ := by
      cases h with
      | stay => rfl
      | assign hx => exact (hno _ _ rfl hx).elim
      | havoc _ hx => exact (hno _ _ rfl hx).elim
    refine Submodule.subset_span ⟨identityOf (vars.length + 1), by simp [heq], ?_⟩
    rw [hsame, view_identityOf, Matrix.vecMul_one]
  · obtain ⟨-, c, hc, hcol⟩ := r.coefficients?_spec haffine σ
    have hnext : σ' = Function.update σ vars[k] c := by
      cases h with
      | stay hno => exact (hno _ _ rfl (List.getElem_mem k.isLt)).elim
      | assign _ _ hc' => rw [Option.some.inj (hc'.symm.trans hc)]
      | havoc _ _ hnone => simp [haffine] at hnone
    refine Submodule.subset_span ⟨_, by rw [heq]; exact List.mem_singleton_self _, ?_⟩
    rw [hnext, r.augmented_vecMul_withColumn hvars, hcol]
    rfl
  · have hnext : ∃ c, σ' = Function.update σ vars[k] c := by
      cases h with
      | stay hno => exact (hno _ _ rfl (List.getElem_mem k.isLt)).elim
      | assign _ hsome => simp [haffine] at hsome
      | havoc c => exact ⟨c, rfl⟩
    obtain ⟨c, rfl⟩ := hnext
    rw [heq, r.augmented_update_eq hvars]
    refine Submodule.add_mem _ (Submodule.smul_mem _ _ (Submodule.subset_span ?_))
      (Submodule.smul_mem _ _ (Submodule.subset_span ?_))
    · refine ⟨_, List.mem_cons_self, ?_⟩
      rw [r.augmented_vecMul_withColumn hvars, dot_nil]
    · refine ⟨_, List.mem_cons_of_mem _ List.mem_cons_self, ?_⟩
      rw [r.augmented_vecMul_withColumn hvars, dot_one, augmented_zero]

end WordRing

end AffineRelations
