import AffineRelations.Proofs.Analysis.Fixpoint

/-!
# The relations that a run infers

`Visits` collects the states that executions from the entry can have at a node.
The rows of these states generate the span of the node's generator set: each
matrix takes rows of visited states to rows of visited states, and each visited
state is a combination of what the matrices make of the states before it. So a
linear relation holds in all states at a node exactly if it annihilates the
node's generators.
-/
namespace AffineRelations
open FlowGraph

/-- The states that executions from `entry` can have at a node. All states are
possible at the entry. -/
inductive Visits (r : WordRing) (g : FlowGraph) (entry : ℕ) : ℕ → (String → r.Elem) → Prop
  | start (σ : String → r.Elem) : Visits r g entry entry σ
  | step {i : ℕ} {e : Edge} {σ σ' : String → r.Elem} : Visits r g entry i σ →
      e ∈ g.outEdges i → Executes r g.vars e.stmt σ σ' → Visits r g entry e.target σ'

variable {r : WordRing} {g : FlowGraph} {entry : ℕ}

theorem Visits.reaches {q : ℕ} {σ : String → r.Elem} (h : Visits r g entry q σ) :
    g.Reaches entry q := by
  induction h with
  | start => exact .refl
  | step _ he _ ih => exact ih.step he

/-- The submodule that the rows of the states at a node generate. -/
def stateSpan (r : WordRing) (g : FlowGraph) (entry q : ℕ) :
    Submodule r.Elem (Fin (g.vars.length + 1) → r.Elem) :=
  Submodule.span r.Elem {x | ∃ σ, Visits r g entry q σ ∧ x = r.augmented g.vars σ}

theorem augmented_mem_stateSpan {q : ℕ} {σ : String → r.Elem} (h : Visits r g entry q σ) :
    r.augmented g.vars σ ∈ stateSpan r g entry q :=
  Submodule.subset_span ⟨σ, h, rfl⟩

theorem single_mem_stateSpan (hvars : g.vars.Nodup) (i : Fin (g.vars.length + 1)) :
    Pi.single i 1 ∈ stateSpan r g entry entry := by
  have hzero := r.augmented_origin g.vars
  have hmem (σ : String → r.Elem) : r.augmented g.vars σ ∈ stateSpan r g entry entry :=
    augmented_mem_stateSpan (.start σ)
  refine Fin.cases ?_ (fun k => ?_) i
  · rw [← hzero]
    exact hmem _
  · have hdiff : r.augmented g.vars (Function.update (fun _ => 0) g.vars[k] 1) -
        r.augmented g.vars (fun _ => 0) = Pi.single k.succ 1 := by
      rw [r.augmented_update hvars, hzero]
      funext j
      rw [Pi.sub_apply, Function.update_apply, Pi.single_apply, Pi.single_apply]
      by_cases hj : j = k.succ
      · simp [hj]
      · simp [hj]
    rw [← hdiff]
    exact Submodule.sub_mem _ (hmem _) (hmem _)

/-- A submodule with all unit vectors has all vectors. -/
theorem mem_of_single_mem {n : ℕ} {S : Submodule r.Elem (Fin n → r.Elem)}
    (h : ∀ i, Pi.single i 1 ∈ S) (x : Fin n → r.Elem) : x ∈ S := by
  rw [pi_eq_sum_univ' x]
  exact Submodule.sum_mem _ fun i _ => Submodule.smul_mem _ _ (h i)

theorem orthogonal_span_iff {n : ℕ} (c : Fin n → r.Elem) (T : Set (Fin n → r.Elem)) :
    (∀ x ∈ Submodule.span r.Elem T, c ⬝ᵥ x = 0) ↔ ∀ x ∈ T, c ⬝ᵥ x = 0 :=
  Submodule.span_le (p := LinearMap.ker (dotProductEquiv r.Elem (Fin n) c))

section Filled
variable {g' : FlowGraph} (hvars : g.vars.Nodup) (hreaches : g'.Reaches = g.Reaches)
  (hout : ∀ i, g.Reaches entry i → g'.outEdges i = (g.outEdges i).map (Edge.filled r g.vars))

include hvars hreaches hout

/-- The matrices of the edges take rows of states to rows of states. -/
theorem isClosed_stateSpan :
    g'.IsClosed r (g.vars.length + 1) entry (stateSpan r g entry) where
  unit_mem := single_mem_stateSpan hvars
  step_mem := by
    intro i hi e he m hm x hx
    rw [hreaches] at hi
    rw [hout i hi] at he
    obtain ⟨e₀, he₀, rfl⟩ := List.mem_map.mp he
    suffices hle : stateSpan r g entry i ≤
        (stateSpan r g entry e₀.target).comap (r.view _ _ m).vecMulLinear from hle hx
    refine Submodule.span_le.mpr ?_
    rintro _ ⟨σ, hσ, rfl⟩
    obtain ⟨σ', hexec, heq⟩ := r.exists_executes_of_mem hvars hm σ
    rw [SetLike.mem_coe, Submodule.mem_comap, Matrix.vecMulLinear_apply, heq]
    exact augmented_mem_stateSpan (hσ.step he₀ hexec)

/-- The rows of states lie in every family that the matrices carry along. -/
theorem stateSpan_le {S : ℕ → Submodule r.Elem (Fin (g.vars.length + 1) → r.Elem)}
    (hS : g'.IsClosed r (g.vars.length + 1) entry S) (q : ℕ) : stateSpan r g entry q ≤ S q := by
  refine Submodule.span_le.mpr ?_
  rintro _ ⟨σ, h, rfl⟩
  induction h with
  | start σ => exact mem_of_single_mem hS.unit_mem _
  | @step i e σ σ' hσ he hexec ih =>
      refine Submodule.span_le.mpr ?_ (r.augmented_mem_span hvars hexec)
      rintro _ ⟨m, hm, rfl⟩
      have hmem : e.filled r g.vars ∈ g'.outEdges i := by
        rw [hout i hσ.reaches]
        exact List.mem_map_of_mem he
      exact hS.step_mem i (hreaches ▸ hσ.reaches) _ hmem m hm _ ih

end Filled

theorem Analyzer.Solution.stateSpan_eq {a : Analyzer} {g' : FlowGraph}
    (h : a.Solution g entry g') (hlen : g.vars.length = a.vars) (hvars : g.vars.Nodup) {q : ℕ}
    (hq : g.Reaches entry q) {s : GeneratorSet} (hs : g'.generatorsAt q = some s) :
    stateSpan a.ring g entry q = a.ring.span (g.vars.length + 1) s.vectors := by
  obtain ⟨r, n, name⟩ := a
  obtain rfl : g.vars.length = n := hlen
  have hreaches := reaches_congr h.skeleton_eq
  rw [← spanAt_of_eq_some hs]
  apply le_antisymm
  · exact stateSpan_le hvars hreaches h.outEdges_eq h.closed q
  · exact h.least _ (isClosed_stateSpan hvars hreaches h.outEdges_eq) q hq

theorem dotProduct_augmented (c : Fin (g.vars.length + 1) → r.Elem) (σ : String → r.Elem) :
    c ⬝ᵥ r.augmented g.vars σ = c 0 + ∑ k : Fin g.vars.length, c k.succ * σ g.vars[k] := by
  simp [dotProduct, Fin.sum_univ_succ]

/-- A linear relation between the variables holds in every state at a node
exactly if it annihilates every vector of the node's generator set. -/
theorem relation_iff_orthogonal (hg : g.Built) (a : Analyzer) {found : Findings}
    (hrun : (a.run g).2 = .ok found) :
    g.entry a.entry = .ok found.entry ∧
      ∀ q s, (a.run g).1.generatorsAt q = some s →
        ∀ c : Fin (g.vars.length + 1) → a.ring.Elem,
          (∀ σ, Visits a.ring g found.entry q σ →
            c 0 + ∑ k : Fin g.vars.length, c k.succ * σ g.vars[k] = 0) ↔
          ∀ v ∈ s.vectors, c ⬝ᵥ a.ring.coords (g.vars.length + 1) v = 0 := by
  obtain ⟨hlen, hentry⟩ := Analyzer.checks_of_run_eq_ok hrun
  have hsol := a.solution_run hg.wellFormed hlen hentry
  refine ⟨hentry, fun q s hs c => ?_⟩
  by_cases hq : g.Reaches found.entry q
  · have hspan := hsol.stateSpan_eq hlen hg.wellFormed.vars_nodup hq hs
    calc (∀ σ, Visits a.ring g found.entry q σ →
            c 0 + ∑ k : Fin g.vars.length, c k.succ * σ g.vars[k] = 0)
        ↔ ∀ x ∈ {x | ∃ σ, Visits a.ring g found.entry q σ ∧ x = a.ring.augmented g.vars σ},
            c ⬝ᵥ x = 0 := by
          simp only [← dotProduct_augmented]
          exact ⟨by rintro h _ ⟨σ, hσ, rfl⟩; exact h σ hσ, fun h σ hσ => h _ ⟨σ, hσ, rfl⟩⟩
      _ ↔ ∀ x ∈ a.ring.span (g.vars.length + 1) s.vectors, c ⬝ᵥ x = 0 := by
          rw [← orthogonal_span_iff, ← hspan, stateSpan]
      _ ↔ ∀ v ∈ s.vectors, c ⬝ᵥ a.ring.coords (g.vars.length + 1) v = 0 := by
          rw [WordRing.span, orthogonal_span_iff, Set.forall_mem_image]
          rfl
  · -- executions do not come here, and the set was emptied and never offered a vector
    have hempty : s.vectors = [] := hsol.others q s hq hs
    simp only [hempty, List.not_mem_nil, false_implies, implies_true, iff_true]
    intro σ hσ
    exact (hq hσ.reaches).elim

/-- Modulo 8, the loop around `x = x + 2` after `x = 0` has `4 * x = 0`, but
`2 * x` is not always zero. -/
theorem relation_evenLoop :
    ∃ (a : Analyzer) (found : Findings),
      evenLoop.Built ∧ (a.run evenLoop).2 = .ok found ∧
      (∀ σ, Visits a.ring evenLoop found.entry 1 σ → 4 * σ "x" = 0) ∧
      ¬∀ σ, Visits a.ring evenLoop found.entry 1 σ → 2 * σ "x" = 0 := by
  have hname : ∀ k : Fin evenLoop.vars.length, evenLoop.vars[k] = "x" := by decide +kernel
  let a : Analyzer := ⟨.ofBits 3 (by decide) (by decide), 1, "main"⟩
  have hentry : evenLoop.entry a.entry = .ok 0 := by decide +kernel
  have hlen : evenLoop.vars.length = 1 := by decide +kernel
  have hset : (a.run evenLoop).1.generatorsAt 1 =
      some ⟨a.ring, [some ⟨1, [0]⟩, some ⟨2, []⟩]⟩ := by decide +kernel
  obtain ⟨-, found, hrun, -⟩ := a.run_eq built_evenLoop.wellFormed hlen hentry
  have hx (d : a.ring.Elem) :
      (∀ σ, Visits a.ring evenLoop found.entry 1 σ → d * σ "x" = 0) ↔ d * 2 = 0 := by
    have hiff := (relation_iff_orthogonal built_evenLoop a hrun).2 1 _ hset
      (Fin.cons 0 fun _ => d)
    have hzero (k : Fin evenLoop.vars.length) : (k : ℕ) = 0 := by omega
    have htwo : a.ring.value 2 = 2 := rfl
    simpa [hname, hlen, hzero, htwo, GeneratorSet.vectors, Slots.vectorsFrom, dotProduct,
      Fin.sum_univ_succ, WordRing.coords] using hiff
  refine ⟨a, found, built_evenLoop, hrun, (hx 4).mpr (by decide), fun h => ?_⟩
  exact absurd ((hx 2).mp h) (by decide)

end AffineRelations
