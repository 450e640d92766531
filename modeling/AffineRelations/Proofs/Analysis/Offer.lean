import AffineRelations.Proofs.Analysis.Frame
import AffineRelations.Proofs.GeneratorSet.Potential
import AffineRelations.Proofs.GeneratorSet.Span
import AffineRelations.Proofs.Word.MatrixView

/-!
# What an offer does

A vector that is offered to a node was in the span of the node's generator set,
and nothing changes, or it joins the span and is queued. `Offered` has one
constructor for each of the two. Either way the span afterwards is the span
before together with the vector, and the potential of the graph pays for what
was queued.
-/
namespace AffineRelations

namespace FlowGraph

/-- The submodule that the generator set of a node spans. -/
def spanAt (r : WordRing) (n : ℕ) (g : FlowGraph) (i : ℕ) :
    Submodule r.Elem (Fin n → r.Elem) :=
  r.span n ((g.generatorsAt i).elim [] GeneratorSet.vectors)

/-- How often the generator sets of some nodes can still grow. -/
def potential (r : WordRing) (nodes : List ℕ) (g : FlowGraph) : ℕ :=
  (nodes.map fun i => (g.generatorsAt i).elim 0 fun s => s.slots.potential r).sum

theorem spanAt_of_eq_some {r : WordRing} {n : ℕ} {g : FlowGraph} {i : ℕ} {s : GeneratorSet}
    (h : g.generatorsAt i = some s) : g.spanAt r n i = r.span n s.vectors := by
  rw [spanAt, h, Option.elim_some]

end FlowGraph

namespace Progress

/-- What an offer can do to any state. -/
theorem offer_cases (p : Progress) (i : ℕ) (v : WordVec) :
    p.offer i v = p ∨ (∃ e, p.offer i v = p.fail e) ∨
      ∃ node s s', p.graph.nodes[i]? = some node ∧ node.generators = some s ∧
        s.insert v = .ok (true, s') ∧
        p.offer i v = { p with
          graph := p.graph.modifyNode i fun n => { n with generators := some s' }
          queue := p.queue ++ [(i, v)]
          stats := { p.stats with accepted := p.stats.accepted + 1 }
          events := p.events.push (.generators node.id s') } := by
  unfold offer
  split_ifs
  · exact .inl rfl
  cases hnode : p.graph.nodes[i]? with
  | none => exact .inr (.inl ⟨_, rfl⟩)
  | some node =>
      dsimp only
      cases hgen : node.generators with
      | none => exact .inr (.inl ⟨_, rfl⟩)
      | some s =>
          dsimp only
          cases hins : s.insert v with
          | error e => exact .inr (.inl ⟨_, rfl⟩)
          | ok after =>
              obtain ⟨b, s'⟩ := after
              cases b with
              | false => exact .inl rfl
              | true => exact .inr (.inr ⟨node, s, s', rfl, hgen, hins, rfl⟩)

-- A node that was not prepared cannot take a vector.
example : ((start ⟨[], #[⟨"a", [], none⟩], #[], []⟩).offer 0 [1]).failure =
    some (.missingGenerators "a") := by
  decide

/-- What sending a vector can do to any state. -/
theorem send_cases (r : WordRing) (v : WordVec) (p : Progress) (step : Edge × WordMatrix) :
    p.send r v step = p ∨ (∃ e, p.send r v step = p.fail e) ∨
      p.send r v step = p.offer step.1.target (r.apply step.2 v) := by
  unfold send WordRing.vecMul
  split_ifs with hfail hlen
  · exact .inl rfl
  · dsimp only
    split_ifs
    · exact .inl rfl
    · exact .inr (.inr rfl)
  · exact .inr (.inl ⟨_, rfl⟩)

/-- The two outcomes of an offer of `v` to node `i`. -/
inductive Offered (r : WordRing) (n : ℕ) (p : Progress) (i : ℕ) (v : WordVec) :
    Progress → Prop
  | known : r.coords n v ∈ p.graph.spanAt r n i → Offered r n p i v p
  | grown {node : Node} {s s' : GeneratorSet} :
      p.graph.nodes[i]? = some node → node.generators = some s → s'.Fits r n →
      Slots.Inserts r s.slots v true s'.slots →
      Offered r n p i v
        { p with
          graph := p.graph.modifyNode i fun n => { n with generators := some s' }
          queue := p.queue ++ [(i, v)]
          stats := { p.stats with accepted := p.stats.accepted + 1 }
          events := p.events.push (.generators node.id s') }

section Offer
variable {r : WordRing} {n : ℕ} {p : Progress} {i : ℕ} {v : WordVec}

/-- While no failure stands, a vector of the right length is offered to a set
that is there. -/
theorem offer_spec (hfail : p.failure = none) {s : GeneratorSet}
    (hs : p.graph.generatorsAt i = some s) (hfit : s.Fits r n) (hlen : v.length = n)
    (hv : r.ReducedVec v) : Offered r n p i v (p.offer i v) := by
  obtain ⟨node, hnode, hgen⟩ := Option.bind_eq_some_iff.mp hs
  obtain ⟨b, s', hins, hfit', hi⟩ := hfit.insert_eq hlen hv
  rw [offer, if_neg (by simp [hfail])]
  simp only [hnode, hgen, hins]
  cases b with
  | false =>
      refine .known ?_
      rw [FlowGraph.spanAt_of_eq_some hs]
      exact GeneratorSet.mem_span_of_inserts hi
  | true => exact .grown hnode hgen hfit' hi

/-- A vector sent through a matrix is offered, unless it becomes zero. -/
theorem send_spec (hfail : p.failure = none) {step : Edge × WordMatrix}
    (hsquare : step.2.Square n) {s : GeneratorSet}
    (hs : p.graph.generatorsAt step.1.target = some s) (hfit : s.Fits r n)
    (hlen : v.length = n) :
    Offered r n p step.1.target (r.apply step.2 v) (p.send r v step) := by
  have hmul : r.vecMul step.2 v = .ok (r.apply step.2 v) := by
    rw [WordRing.vecMul, if_pos (hlen.trans hsquare.rows_eq.symm)]
  rw [send, if_neg (by simp [hfail]), hmul]
  dsimp only
  split_ifs with hzero
  · refine .known ?_
    rw [r.coords_eq_zero_of_isZero hzero]
    exact Submodule.zero_mem _
  · exact offer_spec hfail hs hfit (by simp [hsquare.cols_eq])
      (r.reducedVec_apply _ _)

variable {p' : Progress}

theorem Offered.spanAt_eq (h : Offered r n p i v p') (j : ℕ) :
    p'.graph.spanAt r n j = p.graph.spanAt r n j ⊔
      if i = j then Submodule.span r.Elem {r.coords n v} else ⊥ := by
  cases h with
  | known hmem =>
      split_ifs with hij
      · subst hij
        exact (sup_eq_left.mpr ((Submodule.span_singleton_le_iff_mem _ _).mpr hmem)).symm
      · rw [sup_bot_eq]
  | @grown node s s' hnode hgen _ hi =>
      rw [FlowGraph.spanAt, FlowGraph.generatorsAt_modifyNode]
      split_ifs with hij
      · subst hij
        have hs : p.graph.generatorsAt i = some s := Option.bind_eq_some_iff.mpr ⟨_, hnode, hgen⟩
        rw [hnode, FlowGraph.spanAt_of_eq_some hs]
        exact GeneratorSet.span_vectors_of_inserts hi
      · rw [sup_bot_eq]
        rfl

theorem Offered.le_spanAt (h : Offered r n p i v p') (j : ℕ) :
    p.graph.spanAt r n j ≤ p'.graph.spanAt r n j := by
  rw [h.spanAt_eq j]
  exact le_sup_left

theorem Offered.mem_spanAt (h : Offered r n p i v p') :
    r.coords n v ∈ p'.graph.spanAt r n i := by
  rw [h.spanAt_eq i, if_pos rfl]
  exact Submodule.mem_sup_right (Submodule.mem_span_singleton_self _)

theorem Offered.regenerates (h : Offered r n p i v p') : p.graph.Regenerates p'.graph := by
  cases h with
  | known => exact .refl _
  | grown hnode hgen =>
      exact FlowGraph.regenerates_modifyNode (Option.bind_eq_some_iff.mpr ⟨_, hnode, hgen⟩) _

theorem Offered.failure_eq (h : Offered r n p i v p') : p'.failure = p.failure := by
  cases h <;> rfl

theorem Offered.generatorsAt_ne (h : Offered r n p i v p') {j : ℕ} (hij : i ≠ j) :
    p'.graph.generatorsAt j = p.graph.generatorsAt j := by
  cases h with
  | known => rfl
  | grown => rw [FlowGraph.generatorsAt_modifyNode, if_neg hij]

theorem Offered.fits (h : Offered r n p i v p') {j : ℕ}
    (hj : ∃ s, p.graph.generatorsAt j = some s ∧ s.Fits r n) :
    ∃ s, p'.graph.generatorsAt j = some s ∧ s.Fits r n := by
  by_cases hij : i = j
  · subst hij
    cases h with
    | known => exact hj
    | grown hnode _ hfit =>
        refine ⟨_, ?_, hfit⟩
        rw [FlowGraph.generatorsAt_modifyNode, if_pos rfl, hnode, Option.bind_some]
  · rwa [h.generatorsAt_ne hij]

/-- Whatever joins the queue was offered, and was not in the span before. -/
theorem Offered.queue_cases (h : Offered r n p i v p') :
    p' = p ∨ p'.queue = p.queue ++ [(i, v)] := by
  cases h with
  | known => exact .inl rfl
  | grown => exact .inr rfl

/-- The potential pays for what joins the queue. -/
theorem Offered.potential_le (h : Offered r n p i v p') {nodes : List ℕ} (hi : i ∈ nodes) :
    p'.graph.potential r nodes + p'.queue.length ≤
      p.graph.potential r nodes + p.queue.length := by
  have hother {j : ℕ} (hij : i ≠ j) := h.generatorsAt_ne hij
  cases h with
  | known => exact le_rfl
  | @grown node s s' hnode hgen _ hins =>
      have hs : p.graph.generatorsAt i = some s := Option.bind_eq_some_iff.mpr ⟨_, hnode, hgen⟩
      have hs' : (p.graph.modifyNode i fun n => { n with generators := some s' }).generatorsAt i =
          some s' := by
        rw [FlowGraph.generatorsAt_modifyNode, if_pos rfl, hnode, Option.bind_some]
      have hdrop : s'.slots.potential r < s.slots.potential r := hins.potential_le
      have hlt : (p.graph.modifyNode i fun n => { n with generators := some s' }).potential r
          nodes < p.graph.potential r nodes := by
        refine List.sum_lt_sum _ _ ?_ ⟨i, hi, ?_⟩
        · intro j hj
          by_cases hij : i = j
          · subst hij
            rw [hs, hs']
            exact hdrop.le
          · rw [hother hij]
        · rw [hs, hs']
          exact hdrop
      simp only [List.length_append, List.length_singleton]
      omega

end Offer

end Progress

end AffineRelations
