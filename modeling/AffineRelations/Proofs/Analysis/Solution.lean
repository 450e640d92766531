import AffineRelations.Proofs.Analysis.Worklist
import AffineRelations.Proofs.Transition

/-!
# What a run leaves

A run on a well-formed graph succeeds whenever it gets past its checks, and the
graph that it leaves is well-formed again. `Solution` says what is known of the
generator sets. `Built` holds of the graphs that come about by adding nodes,
edges and procedures and by running analyzers, in any order.
-/
namespace AffineRelations

namespace Analyzer
variable {g : FlowGraph} {entry : ℕ}

section Phases
variable (a : Analyzer) (hg : g.WellFormed) {name : String} (hentry : g.entry name = .ok entry)

include hg hentry

theorem underway_opened :
    Progress.Underway a.ring (a.vars + 1) (a.opened g entry).graph entry [] (a.opened g entry) := by
  have hopen := a.opened_spec hg hentry
  have hempty {i : ℕ} (hi : (a.opened g entry).graph.Reaches entry i) :
      (a.opened g entry).graph.generatorsAt i = some (.empty a.ring (a.vars + 1)) := by
    rw [FlowGraph.reaches_congr hopen.skeleton_eq] at hi
    exact hopen.generatorsAt_eq name entry i hentry hi
  have hbot {i : ℕ} (hi : (a.opened g entry).graph.Reaches entry i) :
      (a.opened g entry).graph.spanAt a.ring (a.vars + 1) i = ⊥ := by
    rw [FlowGraph.spanAt_of_eq_some (hempty hi), GeneratorSet.vectors_empty, WordRing.span_nil]
  constructor
  case failure_eq => exact hopen.failure_eq
  case regenerates => exact .refl _
  case fits => exact fun i hi => ⟨_, hempty hi, GeneratorSet.fits_empty _ _⟩
  case others => exact fun _ _ => rfl
  case queued => simp [hopen.queue_eq]
  case covered =>
    intro i hi
    rw [hbot hi]
    exact bot_le
  case below =>
    intro S hS i hi
    rw [hbot hi]
    exact bot_le

/-- Every node that the entry reaches can accept a vector for each column and
each bit. -/
theorem potential_opened_le :
    (a.opened g entry).graph.potential a.ring (g.reach entry) ≤
      (g.reach entry).length * ((a.vars + 1) * a.ring.width) := by
  have hopen := a.opened_spec hg hentry
  have hlt : entry < g.nodes.size := hg.entry_lt name entry hentry
  have hsum := List.sum_le_card_nsmul ((g.reach entry).map fun i =>
    ((a.opened g entry).graph.generatorsAt i).elim 0 fun s => s.slots.potential a.ring)
    ((a.vars + 1) * a.ring.width) (by
      intro k hk
      obtain ⟨i, hi, rfl⟩ := List.mem_map.mp hk
      have hreach := (FlowGraph.mem_reach hg.bounded hlt).mp hi
      rw [hopen.generatorsAt_eq name entry i hentry hreach]
      exact (Slots.potential_replicate_none (a.vars + 1)).le)
  rwa [List.length_map, smul_eq_mul] at hsum

theorem length_reach_mul_le_fuel :
    (g.reach entry).length * ((a.vars + 1) * a.ring.width) ≤ a.fuel g :=
  Nat.mul_le_mul_right _
    (FlowGraph.length_reach_le hg.bounded (hg.entry_lt name entry hentry))

theorem squared_opened (hvars : g.vars.length = a.vars) :
    Progress.Squared (a.vars + 1) (a.opened g entry).graph entry := by
  have hopen := a.opened_spec hg hentry
  intro i hi e he m hm
  rw [FlowGraph.reaches_congr hopen.skeleton_eq] at hi
  rw [hopen.outEdges_eq i hi] at he
  obtain ⟨e', -, rfl⟩ := List.mem_map.mp he
  rw [← hvars]
  exact a.ring.square_statementMatrices hm

/-- After the unit vectors have been offered, the potential bounds all that can
follow. -/
theorem underway_prepare :
    Progress.Underway a.ring (a.vars + 1) (a.opened g entry).graph entry [] (a.prepare g entry) ∧
      (∀ i : Fin (a.vars + 1), Pi.single i 1 ∈
        (a.prepare g entry).graph.spanAt a.ring (a.vars + 1) entry) ∧
      (a.prepare g entry).graph.potential a.ring (g.reach entry) +
          (a.prepare g entry).queue.length ≤
        (g.reach entry).length * ((a.vars + 1) * a.ring.width) := by
  have hopen := a.opened_spec hg hentry
  have hself : (a.opened g entry).graph.Reaches entry entry := .refl
  obtain ⟨hfinal, -, hunit, hpot⟩ := (a.underway_opened hg hentry).foldl_offered
    (f := fun p i => p.offer entry (WordVec.unit (a.vars + 1) i))
    (fun _ => entry) (fun i => WordVec.unit (a.vars + 1) i) (fun j => hopen.mem_reach hg hentry)
    (fun i (_ : i ∈ List.range (a.vars + 1)) => hself) (by simp [WordVec.unit])
    (by
      intro i hi S hS
      rw [a.ring.coords_unit ⟨i, List.mem_range.mp hi⟩]
      exact hS.unit_mem _)
    (by
      intro i _ p hp
      obtain ⟨s, hs, hfit⟩ := hp.fits entry hself
      exact Progress.offer_spec hp.failure_eq hs hfit (by simp [WordVec.unit])
        (a.ring.reducedVec_unit _ i))
  rw [← prepare_eq] at hfinal hunit hpot
  refine ⟨hfinal, ?_, ?_⟩
  · intro i
    rw [← a.ring.coords_unit i]
    exact hunit i (List.mem_range.mpr i.isLt)
  · rw [hopen.queue_eq, List.length_nil, Nat.add_zero] at hpot
    exact hpot.trans (a.potential_opened_le hg hentry)

theorem closed_drain (hvars : g.vars.length = a.vars) :
    Progress.Underway a.ring (a.vars + 1) (a.opened g entry).graph entry []
        (Progress.drain a.ring (a.fuel g) (a.prepare g entry)) ∧
      (a.opened g entry).graph.IsClosed a.ring (a.vars + 1) entry
        ((Progress.drain a.ring (a.fuel g) (a.prepare g entry)).graph.spanAt a.ring
          (a.vars + 1)) := by
  obtain ⟨hunder, hunit, hpot⟩ := a.underway_prepare hg hentry
  obtain ⟨hfinal, hqueue, hmono⟩ := hunder.drain (a.squared_opened hg hentry hvars)
    (fun j => (a.opened_spec hg hentry).mem_reach hg hentry)
    (hpot.trans (a.length_reach_mul_le_fuel hg hentry))
  refine ⟨hfinal, fun i => hmono entry (hunit i), ?_⟩
  intro i hi e he m hm x hx
  -- nothing waits any more, so the whole span at `i` is settled
  have hcovered := hfinal.covered i hi hx
  have hnothing : Progress.backlog a.ring (a.vars + 1) [] i = ⊥ := by simp [Progress.backlog]
  rw [hqueue, List.append_nil, hnothing, sup_bot_eq] at hcovered
  exact FlowGraph.mem_settled.mp hcovered (e, m) (FlowGraph.mem_steps.mpr ⟨he, hm⟩)

end Phases

/-- What a successful run from `entry` leaves of a graph. -/
structure Solution (a : Analyzer) (g : FlowGraph) (entry : ℕ) (g' : FlowGraph) : Prop where
  skeleton_eq : g'.skeleton = g.skeleton
  outEdges_eq : ∀ i, g.Reaches entry i →
    g'.outEdges i = (g.outEdges i).map (Edge.filled a.ring g.vars)
  isSome : ∀ i, g.Reaches entry i → (g'.generatorsAt i).isSome
  /-- Nodes that only other procedures reach have empty sets. -/
  others : ∀ i s, ¬g.Reaches entry i → g'.generatorsAt i = some s → s.vectors = []
  closed : g'.IsClosed a.ring (a.vars + 1) entry (g'.spanAt a.ring (a.vars + 1))
  least : ∀ S, g'.IsClosed a.ring (a.vars + 1) entry S →
    ∀ i, g.Reaches entry i → g'.spanAt a.ring (a.vars + 1) i ≤ S i

/-- A run that gets past its checks answers with what its loop leaves. -/
theorem run_eq_drain (a : Analyzer) (hg : g.WellFormed) (hvars : g.vars.length = a.vars)
    (hentry : g.entry a.entry = .ok entry) :
    a.run g = ((Progress.drain a.ring (a.fuel g) (a.prepare g entry)).graph,
      .ok ⟨entry, (Progress.drain a.ring (a.fuel g) (a.prepare g entry)).stats,
        (Progress.drain a.ring (a.fuel g) (a.prepare g entry)).events.toList⟩) := by
  have hfail := (a.closed_drain hg hentry hvars).1.failure_eq
  rw [run, if_neg (by simpa using hvars)]
  simp only [hentry, hfail]

theorem run_eq (a : Analyzer) (hg : g.WellFormed) (hvars : g.vars.length = a.vars)
    (hentry : g.entry a.entry = .ok entry) :
    (a.run g).1 = (Progress.drain a.ring (a.fuel g) (a.prepare g entry)).graph ∧
      ∃ found, (a.run g).2 = .ok found ∧ found.entry = entry := by
  rw [a.run_eq_drain hg hvars hentry]
  exact ⟨rfl, _, rfl, rfl⟩

theorem solution_run (a : Analyzer) (hg : g.WellFormed) (hvars : g.vars.length = a.vars)
    (hentry : g.entry a.entry = .ok entry) : a.Solution g entry (a.run g).1 := by
  have hopen := a.opened_spec hg hentry
  obtain ⟨hunder, hclosed⟩ := a.closed_drain hg hentry hvars
  rw [(a.run_eq hg hvars hentry).1]
  generalize Progress.drain a.ring (a.fuel g) (a.prepare g entry) = p at hunder hclosed ⊢
  have hregen := hunder.regenerates
  have hreaches := FlowGraph.reaches_congr hopen.skeleton_eq
  constructor
  case skeleton_eq => exact hregen.skeleton_eq.trans hopen.skeleton_eq
  case outEdges_eq =>
    intro i hi
    rw [hregen.outEdges_eq, hopen.outEdges_eq i hi]
  case isSome =>
    intro i hi
    obtain ⟨s, hs, -⟩ := hunder.fits i (by rwa [hreaches])
    rw [hs, Option.isSome_some]
  case others =>
    intro i s hi hs
    rw [hunder.others i (by rwa [hreaches])] at hs
    obtain ⟨name, j, hname, hj⟩ := hopen.generated i s hs
    rw [hopen.generatorsAt_eq name j i hname hj] at hs
    obtain rfl := Option.some.inj hs
    exact GeneratorSet.vectors_empty _ _
  case closed => exact (FlowGraph.isClosed_congr hregen).mpr hclosed
  case least =>
    intro S hS i hi
    exact hunder.below S ((FlowGraph.isClosed_congr hregen).mp hS) i (by rwa [hreaches])

/-- A run succeeds only if it gets past its checks. -/
theorem checks_of_run_eq_ok {a : Analyzer} {found : Findings} (h : (a.run g).2 = .ok found) :
    g.vars.length = a.vars ∧ g.entry a.entry = .ok found.entry := by
  rw [run] at h
  split_ifs at h with hvars
  cases hentry : g.entry a.entry with
  | error e => simp [hentry] at h
  | ok entry =>
      simp only [hentry] at h
      split at h
      · cases h
      · obtain rfl := Except.ok.inj h
        exact ⟨not_not.mp hvars, rfl⟩

theorem run_cases (a : Analyzer) (g : FlowGraph) :
    (a.run g).1 = g ∨ ∃ entry, g.vars.length = a.vars ∧ g.entry a.entry = .ok entry := by
  by_cases hvars : g.vars.length = a.vars
  · cases hentry : g.entry a.entry with
    | error e =>
        left
        rw [run, if_neg (by simpa using hvars)]
        simp only [hentry]
    | ok entry => exact .inr ⟨entry, hvars, rfl⟩
  · left
    rw [run, if_pos hvars]

end Analyzer

namespace FlowGraph

theorem WellFormed.run {g : FlowGraph} (hg : g.WellFormed) (a : Analyzer) :
    (a.run g).1.WellFormed := by
  rcases a.run_cases g with heq | ⟨entry, hvars, hentry⟩
  · rwa [heq]
  · have hopen := a.opened_spec hg hentry
    have hregen := (a.closed_drain hg hentry hvars).1.regenerates
    rw [← (a.run_eq hg hvars hentry).1] at hregen
    have hskel : (a.run g).1.skeleton = g.skeleton := hregen.skeleton_eq.trans hopen.skeleton_eq
    constructor
    case vars_nodup =>
      rw [vars_congr hskel]
      exact hg.vars_nodup
    case edge_fits =>
      rw [hregen.edges_eq, vars_congr hskel, size_nodes_congr hskel]
      exact hopen.edge_fits
    case out_lt =>
      intro i n hn k hk
      obtain ⟨n₀, hn₀, hout⟩ := exists_out_congr hskel hn
      rw [size_edges_congr hskel]
      exact hg.out_lt i n₀ hn₀ k (hout ▸ hk)
    case entry_lt =>
      rw [entry_congr hskel, size_nodes_congr hskel]
      exact hg.entry_lt
    case generated =>
      intro i s hs
      have hsome : ((a.opened g entry).graph.generatorsAt i).isSome := by
        rw [← hregen.isSome_eq, hs, Option.isSome_some]
      obtain ⟨s₀, hs₀⟩ := Option.isSome_iff_exists.mp hsome
      rw [entry_congr hskel, reaches_congr hskel]
      exact hopen.generated i s₀ hs₀

/-- The graphs that come about by adding to a graph and by analysing it. -/
inductive Built : FlowGraph → Prop
  | ofVars {vars : List String} {g : FlowGraph} : ofVars vars = .ok g → Built g
  | addNode {g : FlowGraph} (id : String) : Built g → Built (g.addNode id).1
  | addEdge {g : FlowGraph} (source target : String) (stmt : Option Expr) :
      Built g → Built (g.addEdge source target stmt).1
  | addProcedure {g : FlowGraph} (name entry : String) :
      Built g → Built (g.addProcedure name entry).1
  | run {g : FlowGraph} (a : Analyzer) : Built g → Built (a.run g).1

theorem Built.wellFormed {g : FlowGraph} (h : g.Built) : g.WellFormed := by
  induction h with
  | ofVars h => exact wellFormed_ofVars h
  | addNode id _ ih => exact ih.addNode id
  | addEdge source target stmt _ ih => exact ih.addEdge source target stmt
  | addProcedure name entry _ ih => exact ih.addProcedure name entry
  | run a _ ih => exact ih.run a

end FlowGraph

end AffineRelations
