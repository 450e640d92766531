import AffineRelations.Proofs.Analysis.History

/-!
# Analyses of different widths

Reducing modulo a smaller power of two is a ring homomorphism. It takes what
words denote to what the same words denote in the smaller ring, and a
statement's matrices to the statement's matrices there. So the images of the
spans that an analysis leaves are carried along the edges in the smaller ring,
and the spans that an analysis in the smaller ring leaves can be pulled back.
Since both families are the least ones, the images are the spans.
-/
namespace AffineRelations

namespace WordRing
variable {r r' : WordRing} {n : ℕ} (h : r'.width ≤ r.width)

/-- The residue modulo a smaller power of two. -/
def narrow : r.Elem →+* r'.Elem := ZMod.castHom (Nat.pow_dvd_pow 2 h) r'.Elem

instance : RingHomSurjective (narrow h) := ⟨ZMod.castHom_surjective (Nat.pow_dvd_pow 2 h)⟩

theorem narrow_value (x : UInt64) : narrow h (r.value x) = r'.value x := map_natCast (narrow h) _

/-- The residues of all coordinates. -/
def narrowVec (n : ℕ) : (Fin n → r.Elem) →ₛₗ[narrow h] (Fin n → r'.Elem) where
  toFun x i := narrow h (x i)
  map_add' x y := by
    funext i
    exact map_add (narrow h) (x i) (y i)
  map_smul' c x := by
    funext i
    exact map_mul (narrow h) c (x i)

@[simp] theorem narrowVec_apply (x : Fin n → r.Elem) (i : Fin n) :
    narrowVec h n x i = narrow h (x i) := rfl

theorem narrowVec_single (i : Fin n) (c : r.Elem) :
    narrowVec h n (Pi.single i c) = Pi.single i (narrow h c) := by
  funext j
  rw [narrowVec_apply, Pi.single_apply, Pi.single_apply, apply_ite (narrow h), map_zero]

theorem narrowVec_coords (v : WordVec) : narrowVec h n (r.coords n v) = r'.coords n v :=
  funext fun _ => narrow_value h _

theorem narrowVec_vecMul (x : Fin n → r.Elem) (m : WordMatrix) :
    narrowVec h n (Matrix.vecMul x (r.view n n m)) =
      Matrix.vecMul (narrowVec h n x) (r'.view n n m) := by
  have hview : (r.view n n m).map (narrow h) = r'.view n n m := by
    ext i j
    exact narrow_value h _
  funext j
  rw [narrowVec_apply, RingHom.map_vecMul, hview]
  rfl

/-- Two columns of length `n` that denote one column of the ring. -/
structure Agree (r' : WordRing) (n : ℕ) (u v : WordVec) : Prop where
  length_left : u.length = n
  length_right : v.length = n
  coords_eq : r'.coords n u = r'.coords n v

include h in
theorem agree_term {i : ℕ} (hi : i < n) (c : Int64) (negative : Bool) :
    Agree r' n (r.term n i c negative) (r'.term n i c negative) := by
  refine ⟨by simp [term], by simp [term], ?_⟩
  rw [← narrowVec_coords h, r.coords_term hi, r'.coords_term hi, narrowVec_single]
  cases negative <;> simp

include h in
theorem Agree.addVec {u v u' v' : WordVec} (hu : Agree r' n u u') (hv : Agree r' n v v') :
    Agree r' n (r.addVec u v) (r'.addVec u' v') := by
  refine ⟨?_, ?_, ?_⟩
  · simp [WordRing.addVec, hu.length_left, hv.length_left]
  · simp [WordRing.addVec, hu.length_right, hv.length_right]
  · rw [← narrowVec_coords h, r.coords_addVec (hu.length_left.trans hv.length_left.symm), map_add,
      narrowVec_coords, narrowVec_coords, hu.coords_eq, hv.coords_eq,
      r'.coords_addVec (hu.length_right.trans hv.length_right.symm)]

include h in
theorem agree_sum {x x' y y' : Option WordVec} (hx : Option.Rel (Agree r' n) x x')
    (hy : Option.Rel (Agree r' n) y y') :
    Option.Rel (Agree r' n) (do return r.addVec (← x) (← y))
      (do return r'.addVec (← x') (← y')) := by
  cases hx with
  | none => exact .none
  | some hu =>
      cases hy with
      | none => exact .none
      | some hv => exact .some (hu.addVec h hv)

include h in
/-- Both rings recognise the same expressions, with the same coefficients. -/
theorem coefficients?_agree (vars : List String) (negative : Bool) (e : Expr) :
    Option.Rel (Agree r' (vars.length + 1)) (r.coefficients? vars negative e)
      (r'.coefficients? vars negative e) := by
  induction e generalizing negative with
  | absent => exact .none
  | num c => exact .some (agree_term h (Nat.succ_pos _) c negative)
  | var x =>
      rw [coefficients?, coefficients?]
      cases hslot : slot? vars x with
      | none => exact .none
      | some i =>
          obtain ⟨k, -, rfl⟩ := slot?_eq_some hslot
          exact .some (agree_term h k.succ.isLt 1 negative)
  | bin op a b iha ihb =>
      cases op with
      | add => exact agree_sum h (iha negative) (ihb negative)
      | sub =>
          rw [coefficients?, coefficients?]
          split_ifs
          · exact .none
          · exact agree_sum h (iha negative) (ihb !negative)
      | mul =>
          rw [coefficients?, coefficients?]
          cases factor? a b with
          | none => exact .none
          | some product =>
              simp only [Option.bind_eq_bind, Option.bind_some]
              cases hslot : slot? vars product.2 with
              | none => exact .none
              | some i =>
                  obtain ⟨k, -, rfl⟩ := slot?_eq_some hslot
                  exact .some (agree_term h k.succ.isLt product.1 negative)
      | _ => exact .none

theorem view_withColumn_congr {u v : WordVec} (huv : r.coords n u = r.coords n v) (k : ℕ) :
    r.view n n (withColumn n k u) = r.view n n (withColumn n k v) := by
  rw [withColumn, withColumn, view_ofFn, view_ofFn]
  ext i j
  have hi : r.value (u.getD i 0) = r.value (v.getD i 0) := congrFun huv i
  by_cases hj : (j : ℕ) = k
  · rw [Matrix.of_apply, Matrix.of_apply, if_pos hj, if_pos hj, hi]
  · rw [Matrix.of_apply, Matrix.of_apply, if_neg hj, if_neg hj]

include h in
/-- In the smaller ring a statement has one list of matrices, whichever of the
two rings they were made for. -/
theorem statementMatrices_agree (vars : List String) (stmt : Option Expr) :
    (r.statementMatrices vars stmt).map (r'.view (vars.length + 1) (vars.length + 1)) =
      (r'.statementMatrices vars stmt).map (r'.view (vars.length + 1) (vars.length + 1)) := by
  rw [statementMatrices, statementMatrices]
  cases stmt.bind Expr.assignment? with
  | none => rfl
  | some target =>
      dsimp only
      cases slot? vars target.1 with
      | none => rfl
      | some k =>
          have hagree := coefficients?_agree h vars false target.2
          dsimp only [affine?]
          generalize r.coefficients? vars false target.2 = x at hagree ⊢
          generalize r'.coefficients? vars false target.2 = x' at hagree ⊢
          cases hagree with
          | none => rfl
          | some hcol =>
              rw [List.map_singleton, List.map_singleton, view_withColumn_congr hcol.coords_eq]

end WordRing

namespace Analyzer
open FlowGraph WordRing

section Narrowed
variable {g g₁ g₂ : FlowGraph} {entry : ℕ} {r r' : WordRing} {name name' : String}

/-- A run's outcome is known from the skeleton. -/
theorem Solution.of_skeleton_eq {a : Analyzer} {g' : FlowGraph} (h : g'.skeleton = g.skeleton)
    (hs : a.Solution g' entry g₂) : a.Solution g entry g₂ where
  skeleton_eq := hs.skeleton_eq.trans h
  outEdges_eq := by
    intro i hi
    rw [hs.outEdges_eq i (by rwa [reaches_congr h]), vars_congr h, outEdges_filled_congr h]
  isSome := by
    rw [← reaches_congr h]
    exact hs.isSome
  others := by
    rw [← reaches_congr h]
    exact hs.others
  closed := hs.closed
  least := by
    rw [← reaches_congr h]
    exact hs.least

/-- If the matrices of all statements look alike in some ring, those of the
edges do. -/
theorem Solution.exists_step {a a' : Analyzer} {n : ℕ} (h₁ : a.Solution g entry g₁)
    (h₂ : a'.Solution g entry g₂)
    (hsame : ∀ stmt, (a.ring.statementMatrices g.vars stmt).map (r.view n n) =
      (a'.ring.statementMatrices g.vars stmt).map (r.view n n))
    {i : ℕ} (hi : g₁.Reaches entry i) {e : Edge} (he : e ∈ g₁.outEdges i) {m : WordMatrix}
    (hm : m ∈ e.matrices) :
    g₂.Reaches entry i ∧ ∃ e' ∈ g₂.outEdges i, e'.target = e.target ∧
      ∃ m' ∈ e'.matrices, r.view n n m' = r.view n n m := by
  rw [reaches_congr h₁.skeleton_eq] at hi
  rw [h₁.outEdges_eq i hi] at he
  obtain ⟨e₀, he₀, rfl⟩ := List.mem_map.mp he
  have hmem : r.view n n m ∈ (a'.ring.statementMatrices g.vars e₀.stmt).map (r.view n n) := by
    rw [← hsame]
    exact List.mem_map_of_mem hm
  obtain ⟨m', hm', heq⟩ := List.mem_map.mp hmem
  refine ⟨by rwa [reaches_congr h₂.skeleton_eq], e₀.filled a'.ring g.vars, ?_, rfl, m', hm', heq⟩
  rw [h₂.outEdges_eq i hi]
  exact List.mem_map_of_mem he₀

variable (h₁ : Solution ⟨r, g.vars.length, name⟩ g entry g₁)
  (h₂ : Solution ⟨r', g.vars.length, name'⟩ g entry g₂) (h : r'.width ≤ r.width)

include h₁ h₂ h

/-- What the analysis in the smaller ring leaves can be pulled back. -/
theorem isClosed_comap_narrowVec : g₁.IsClosed r (g.vars.length + 1) entry fun i =>
    (g₂.spanAt r' (g.vars.length + 1) i).comap (narrowVec h (g.vars.length + 1)) where
  unit_mem := by
    intro i
    rw [Submodule.mem_comap, narrowVec_single, map_one]
    exact h₂.closed.unit_mem i
  step_mem := by
    intro i hi e he m hm x hx
    obtain ⟨hi', e', he', htarget, m', hm', hview⟩ :=
      h₁.exists_step h₂ (statementMatrices_agree h g.vars) hi he hm
    rw [Submodule.mem_comap, narrowVec_vecMul, ← hview, ← htarget]
    exact h₂.closed.step_mem i hi' e' he' m' hm' _ hx

/-- What the analysis in the greater ring leaves can be reduced. -/
theorem isClosed_map_narrowVec : g₂.IsClosed r' (g.vars.length + 1) entry fun i =>
    (g₁.spanAt r (g.vars.length + 1) i).map (narrowVec h (g.vars.length + 1)) where
  unit_mem := by
    intro i
    refine ⟨Pi.single i 1, h₁.closed.unit_mem i, ?_⟩
    rw [narrowVec_single, map_one]
  step_mem := by
    intro i hi e he m hm x hx
    obtain ⟨y, hy, rfl⟩ := hx
    obtain ⟨hi', e', he', htarget, m', hm', hview⟩ :=
      h₂.exists_step h₁ (fun stmt => (statementMatrices_agree h g.vars stmt).symm) hi he hm
    rw [← hview, ← narrowVec_vecMul, ← htarget]
    exact Submodule.mem_map_of_mem (h₁.closed.step_mem i hi' e' he' m' hm' _ hy)

theorem spanAt_eq_map_narrowVec {q : ℕ} (hq : g.Reaches entry q) :
    g₂.spanAt r' (g.vars.length + 1) q =
      (g₁.spanAt r (g.vars.length + 1) q).map (narrowVec h (g.vars.length + 1)) := by
  apply le_antisymm
  · exact h₂.least _ (isClosed_map_narrowVec h₁ h₂ h) q hq
  · exact Submodule.map_le_iff_le_comap.mpr
      (h₁.least _ (isClosed_comap_narrowVec h₁ h₂ h) q hq)

end Narrowed

/-- Two analyses of one program from one entry, the second in a ring of no
greater width, both succeed. At every node that the entry reaches, the second
leaves a set whose span is that of the first, reduced coordinate by coordinate.
The graphs may have had other analyses before. -/
theorem span_vectors_narrow {g g' : FlowGraph} (hg : g.Built) (hg' : g'.Built)
    (hsame : g'.skeleton = g.skeleton) {r r' : WordRing} (h : r'.width ≤ r.width)
    {name : String} {entry : ℕ} (hentry : g.entry name = .ok entry) :
    (∃ found, (Analyzer.run ⟨r, g.vars.length, name⟩ g).2 = .ok found ∧ found.entry = entry) ∧
      (∃ found, (Analyzer.run ⟨r', g.vars.length, name⟩ g').2 = .ok found ∧
        found.entry = entry) ∧
      ∀ q, g.Reaches entry q → ∃ s s',
        (Analyzer.run ⟨r, g.vars.length, name⟩ g).1.generatorsAt q = some s ∧
        (Analyzer.run ⟨r', g.vars.length, name⟩ g').1.generatorsAt q = some s' ∧
        r'.span (g.vars.length + 1) s'.vectors =
          (r.span (g.vars.length + 1) s.vectors).map (narrowVec h (g.vars.length + 1)) := by
  have hvars : g'.vars.length = g.vars.length := by rw [vars_congr hsame]
  have hentry' : g'.entry name = .ok entry := by rwa [entry_congr hsame]
  have h₁ := solution_run ⟨r, g.vars.length, name⟩ hg.wellFormed rfl hentry
  have h₂ := (solution_run ⟨r', g.vars.length, name⟩ hg'.wellFormed hvars hentry').of_skeleton_eq
    hsame
  refine ⟨(run_eq ⟨r, g.vars.length, name⟩ hg.wellFormed rfl hentry).2,
    (run_eq ⟨r', g.vars.length, name⟩ hg'.wellFormed hvars hentry').2, ?_⟩
  intro q hq
  obtain ⟨s, hs⟩ := Option.isSome_iff_exists.mp (h₁.isSome q hq)
  obtain ⟨s', hs'⟩ := Option.isSome_iff_exists.mp (h₂.isSome q hq)
  refine ⟨s, s', hs, hs', ?_⟩
  rw [← spanAt_of_eq_some hs, ← spanAt_of_eq_some hs']
  exact spanAt_eq_map_narrowVec h₁ h₂ h hq

/-- An analysis modulo 2 after one modulo 8. In the loop around `x = x + 2` the
second generator of the first vanishes. -/
theorem span_vectors_narrow_evenLoop :
    ∃ (a a' : Analyzer) (h : a'.ring.width ≤ a.ring.width) (s s' : GeneratorSet),
      evenLoop.Reaches 0 1 ∧ (a.run evenLoop).1.generatorsAt 1 = some s ∧
      (a'.run (a.run evenLoop).1).1.generatorsAt 1 = some s' ∧
      s.vectors = [[1, 0], [0, 2]] ∧ s'.vectors = [[1, 0]] ∧
      a'.ring.span 2 s'.vectors = (a.ring.span 2 s.vectors).map (narrowVec h 2) := by
  let a : Analyzer := ⟨.ofBits 3 (by decide) (by decide), 1, "main"⟩
  let a' : Analyzer := ⟨.ofBits 1 (by decide) (by decide), 1, "main"⟩
  have hlen : evenLoop.vars.length = 1 := by decide +kernel
  have hreach : evenLoop.Reaches 0 1 := .single (by decide +kernel)
  have hvectors : ((a.run evenLoop).1.generatorsAt 1).map GeneratorSet.vectors =
      some [[1, 0], [0, 2]] := by decide +kernel
  have hvectors' : ((a'.run (a.run evenLoop).1).1.generatorsAt 1).map GeneratorSet.vectors =
      some [[1, 0]] := by decide +kernel
  obtain ⟨-, -, hspan⟩ := span_vectors_narrow built_evenLoop (built_evenLoop.run a)
    (skeleton_run built_evenLoop.wellFormed a) (by decide : a'.ring.width ≤ a.ring.width)
    (show evenLoop.entry "main" = .ok 0 by decide +kernel)
  rw [hlen] at hspan
  obtain ⟨s, s', hs, hs', heq⟩ := hspan 1 hreach
  refine ⟨a, a', by decide, s, s', hreach, hs, hs', ?_, ?_, heq⟩
  · exact Option.some.inj ((congrArg (Option.map GeneratorSet.vectors) hs).symm.trans hvectors)
  · exact Option.some.inj ((congrArg (Option.map GeneratorSet.vectors) hs').symm.trans hvectors')

end Analyzer

end AffineRelations
