import AffineRelations.Proofs.Analysis.Solution

/-!
# The fixpoint that a run computes

The spans of the generator sets form the least family that holds the unit
vectors at the entry and is carried along the matrices of the edges. Put
differently, each span is generated by the rows of all products of matrices
along paths from the entry.
-/
namespace AffineRelations

namespace FlowGraph

/-- The lists of matrices, one for each edge in turn, along the paths from
`entry` to a node. -/
inductive Path (g : FlowGraph) (entry : ℕ) : List WordMatrix → ℕ → Prop
  | nil : Path g entry [] entry
  | snoc {ms : List WordMatrix} {i : ℕ} {e : Edge} {m : WordMatrix} :
      Path g entry ms i → e ∈ g.outEdges i → m ∈ e.matrices → Path g entry (ms ++ [m]) e.target

/-- The span of all rows `e_i * M_1 * ... * M_k` for paths to a node. -/
def pathSpan (r : WordRing) (n : ℕ) (g : FlowGraph) (entry q : ℕ) :
    Submodule r.Elem (Fin n → r.Elem) :=
  Submodule.span r.Elem {x | ∃ (i : Fin n) (ms : List WordMatrix), g.Path entry ms q ∧
    x = Matrix.vecMul (Pi.single i 1) (ms.map (r.view n n)).prod}

variable {r : WordRing} {n : ℕ} {g : FlowGraph} {entry : ℕ}

theorem Path.reaches {ms : List WordMatrix} {q : ℕ} (h : g.Path entry ms q) :
    g.Reaches entry q := by
  induction h with
  | nil => exact .refl
  | snoc _ he _ ih => exact ih.step he

theorem isClosed_pathSpan : g.IsClosed r n entry (g.pathSpan r n entry) where
  unit_mem := fun i => Submodule.subset_span ⟨i, [], .nil, by simp⟩
  step_mem := by
    intro q _ e he m hm x hx
    suffices hle : g.pathSpan r n entry q ≤
        (g.pathSpan r n entry e.target).comap (r.view n n m).vecMulLinear from hle hx
    refine Submodule.span_le.mpr ?_
    rintro _ ⟨i, ms, hpath, rfl⟩
    refine Submodule.subset_span ⟨i, ms ++ [m], hpath.snoc he hm, ?_⟩
    rw [Matrix.vecMulLinear_apply, Matrix.vecMul_vecMul, List.map_append, List.prod_append,
      List.map_singleton, List.prod_singleton]

theorem IsClosed.pathSpan_le {S : ℕ → Submodule r.Elem (Fin n → r.Elem)}
    (hS : g.IsClosed r n entry S) (q : ℕ) : g.pathSpan r n entry q ≤ S q := by
  refine Submodule.span_le.mpr ?_
  rintro _ ⟨i, ms, hpath, rfl⟩
  induction hpath with
  | nil => simpa using hS.unit_mem i
  | @snoc ms q e m hpath he hm ih =>
      rw [SetLike.mem_coe, List.map_append, List.prod_append, List.map_singleton,
        List.prod_singleton, ← Matrix.vecMul_vecMul]
      exact hS.step_mem q hpath.reaches e he m hm _ ih

/-- A graph with the statement `x = 0` and then a loop around `x = x + 2`. -/
def evenLoop : FlowGraph :=
  let start := addEdge ⟨["x"], #[], #[], []⟩ "start" "loop"
    (some (.bin .assign (.var "x") (.num 0)))
  let loop := start.1.addEdge "loop" "loop"
    (some (.bin .assign (.var "x") (.bin .add (.var "x") (.num 2))))
  (loop.1.addProcedure "main" "start").1

theorem built_evenLoop : evenLoop.Built := by
  have hvars : ofVars ["x"] = .ok ⟨["x"], #[], #[], []⟩ := by decide
  exact ((Built.ofVars hvars).addEdge _ _ _).addEdge _ _ _ |>.addProcedure _ _

end FlowGraph

namespace Analyzer
open FlowGraph

/-- After a successful run, the generator set of every node that the entry
reaches spans what the paths to the node make of the unit vectors. The spans
are the least family that holds the unit vectors at the entry and is carried
along the edges. The matrices are those of the edges' statements, and but for
matrices and generator sets the graph is as it was. -/
theorem span_vectors_run {g : FlowGraph} (hg : g.Built) (a : Analyzer) {found : Findings}
    (hrun : (a.run g).2 = .ok found) :
    g.entry a.entry = .ok found.entry ∧ (a.run g).1.skeleton = g.skeleton ∧
      (∀ i, g.Reaches found.entry i → (a.run g).1.outEdges i =
        (g.outEdges i).map (Edge.filled a.ring g.vars)) ∧
      (∀ i, g.Reaches found.entry i → ∀ e ∈ (a.run g).1.outEdges i, ∀ m ∈ e.matrices,
        m.Square (a.vars + 1)) ∧
      (∀ q, g.Reaches found.entry q → ∃ s, (a.run g).1.generatorsAt q = some s ∧
        a.ring.span (a.vars + 1) s.vectors =
          (a.run g).1.pathSpan a.ring (a.vars + 1) found.entry q) ∧
      (a.run g).1.IsClosed a.ring (a.vars + 1) found.entry
        ((a.run g).1.spanAt a.ring (a.vars + 1)) ∧
      ∀ S, (a.run g).1.IsClosed a.ring (a.vars + 1) found.entry S →
        ∀ q, g.Reaches found.entry q → (a.run g).1.spanAt a.ring (a.vars + 1) q ≤ S q := by
  obtain ⟨hvars, hentry⟩ := checks_of_run_eq_ok hrun
  have hsol := a.solution_run hg.wellFormed hvars hentry
  refine ⟨hentry, hsol.skeleton_eq, hsol.outEdges_eq, ?_, ?_, hsol.closed, hsol.least⟩
  · intro i hi e he m hm
    rw [hsol.outEdges_eq i hi] at he
    obtain ⟨e', -, rfl⟩ := List.mem_map.mp he
    rw [← hvars]
    exact a.ring.square_statementMatrices hm
  · intro q hq
    obtain ⟨s, hs⟩ := Option.isSome_iff_exists.mp (hsol.isSome q hq)
    refine ⟨s, hs, ?_⟩
    rw [← spanAt_of_eq_some hs]
    exact le_antisymm (hsol.least _ isClosed_pathSpan q hq)
      (hsol.closed.pathSpan_le q)

/-- Modulo 8, after an analysis modulo 32, the paths into the loop generate the
vectors with an even second coordinate. -/
theorem span_vectors_run_evenLoop :
    ∃ (a b : Analyzer) (s : GeneratorSet) (found : Findings),
      (b.run evenLoop).1.Built ∧ (a.run (b.run evenLoop).1).2 = .ok found ∧
      (a.run (b.run evenLoop).1).1.generatorsAt 1 = some s ∧ s.vectors = [[1, 0], [0, 2]] ∧
      a.ring.span (a.vars + 1) s.vectors =
        (a.run (b.run evenLoop).1).1.pathSpan a.ring (a.vars + 1) found.entry 1 := by
  let a : Analyzer := ⟨.ofBits 3 (by decide) (by decide), 1, "main"⟩
  let b : Analyzer := ⟨.ofBits 5 (by decide) (by decide), 1, "main"⟩
  have hbuilt : (b.run evenLoop).1.Built := built_evenLoop.run b
  have hentry : (b.run evenLoop).1.entry a.entry = .ok 0 := by decide +kernel
  have hvectors : ((a.run (b.run evenLoop).1).1.generatorsAt 1).map GeneratorSet.vectors =
      some [[1, 0], [0, 2]] := by decide +kernel
  have hreach : (b.run evenLoop).1.Reaches 0 1 := .single (by decide +kernel)
  obtain ⟨-, found, hrun, hfound⟩ := a.run_eq hbuilt.wellFormed (by decide +kernel) hentry
  obtain ⟨s, hs, hspan⟩ := (span_vectors_run hbuilt a hrun).2.2.2.2.1 1 (hfound ▸ hreach)
  refine ⟨a, b, s, found, hbuilt, hrun, hs, ?_, hspan⟩
  simpa [hs] using hvectors

end Analyzer

end AffineRelations
