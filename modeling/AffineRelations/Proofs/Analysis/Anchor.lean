import AffineRelations.Proofs.Analysis.Exactness
import AffineRelations.Proofs.Analysis.History
import AffineRelations.Proofs.GeneratorSet.Stored

/-!
# The anchor of a generator set

No matrix of a statement changes the constant slot of a row. So the vectors
that come from the first unit vector have 1 there, and those that come from
another have 0. Only the former can settle in the first slot of a generator
set, and since no lead has a lower valuation than 1, the one that settles first
stays: it is the row of a state that an execution visits.
-/
namespace AffineRelations

namespace WordRing
variable (r : WordRing)

theorem residue_one : r.residue 1 = 1 :=
  r.value_inj (r.reduced_residue 1) r.reduced_one (r.value_residue 1)

theorem valuation_one : r.valuation 1 = 0 := by
  simp [valuation, split, residue_one]

/-- The constant slot is the same before and after a statement. -/
theorem vecMul_constant {vars : List String} {stmt : Option Expr} {m : WordMatrix}
    (hm : m ∈ r.statementMatrices vars stmt) (x : Fin (vars.length + 1) → r.Elem) :
    Matrix.vecMul x (r.view (vars.length + 1) (vars.length + 1) m) 0 = x 0 := by
  have hcolumn (k : Fin vars.length) (col : WordVec) :
      Matrix.vecMul x (r.view (vars.length + 1) (vars.length + 1)
        (withColumn (vars.length + 1) k.succ col)) 0 = x 0 := by
    rw [r.vecMul_withColumn k.succ.isLt]
    exact Function.update_of_ne (Fin.succ_ne_zero k).symm _ _
  rcases r.statementMatrices_cases vars stmt with
    ⟨-, heq⟩ | ⟨k, e, -, ⟨col, -, heq⟩ | ⟨-, heq⟩⟩
  · rw [heq, List.mem_singleton] at hm
    rw [hm, view_identityOf, Matrix.vecMul_one]
  · rw [heq, List.mem_singleton] at hm
    rw [hm, hcolumn]
  · rw [heq, List.mem_pair] at hm
    rcases hm with rfl | rfl
    · exact hcolumn k []
    · exact hcolumn k [1]

theorem statementMatrices_ne_nil (vars : List String) (stmt : Option Expr) :
    r.statementMatrices vars stmt ≠ [] := by
  rcases r.statementMatrices_cases vars stmt with
    ⟨-, heq⟩ | ⟨k, e, -, ⟨col, -, heq⟩ | ⟨-, heq⟩⟩ <;> simp [heq]

end WordRing

theorem WordVec.lead_of_getD_zero {v : WordVec} (h : v.getD 0 0 = 1) :
    v.leadIndex? = some 0 ∧ v.leadEntry = 1 := by
  cases v with
  | nil => cases h
  | cons x xs =>
      obtain rfl : x = 1 := h
      exact ⟨rfl, rfl⟩

/-- A vacant first slot takes the inserted vector, and a lead of 1 is never
evicted from it. -/
theorem Slots.head?_insert {r : WordRing} {slots : Slots} {v : WordVec}
    (hlead : ∀ x, slots.head? = some (some x) → x.lead = 1) {x : Generator}
    (h : (insert r slots v).2.head? = some (some x)) :
    slots.head? = some (some x) ∨ v = x.lead :: x.rest ∧ x.lead ≠ 0 := by
  cases slots with
  | nil => simp [insert] at h
  | cons slot slots =>
      cases v with
      | nil => exact .inl (by simpa [insert] using h)
      | cons y ys =>
          by_cases hy : y = 0
          · subst hy
            rw [insert_zero_cons] at h
            exact .inl h
          · cases slot with
            | none =>
                have hx : x = ⟨y, ys⟩ := by
                  rw [insert, if_neg hy] at h
                  split_ifs at h
                  · simpa using h.symm
                  · simpa using h.symm
                exact .inr (by simp [hx, hy])
            | some g =>
                have hstays : ¬r.valuation y < r.valuation g.lead := by
                  rw [hlead g rfl, r.valuation_one]
                  exact Nat.not_lt_zero _
                rw [insert, if_neg hy] at h
                simp only [hstays, if_false] at h
                exact .inl h

namespace GeneratorSet
variable {P : WordVec → Prop} {s : GeneratorSet}

/-- What stands in the first slot, if anything does, has a property. -/
def Anchored (P : WordVec → Prop) (s : GeneratorSet) : Prop :=
  ∀ x, s.slots.head? = some (some x) → P (x.lead :: x.rest)

theorem anchored_empty (P : WordVec → Prop) (r : WordRing) (n : ℕ) : (empty r n).Anchored P := by
  intro x hx
  cases n with
  | zero => cases hx
  | succ n => cases hx

theorem Anchored.insert (hP : ∀ v, P v → v.getD 0 0 = 1) (h : s.Anchored P) {v : WordVec}
    (hv : v.getD 0 0 ≠ 0 → P v) {b : Bool} {s' : GeneratorSet}
    (hins : s.insert v = .ok (b, s')) : s'.Anchored P := by
  rw [GeneratorSet.insert] at hins
  split_ifs at hins
  obtain rfl := (Prod.mk.inj (Except.ok.inj hins)).2
  intro x hx
  rcases Slots.head?_insert (fun y hy => hP _ (h y hy)) hx with hold | ⟨rfl, hne⟩
  · exact h x hold
  · exact hv hne

/-- If some vector of the span has a constant, the first slot is taken, and no
other vector that is stored has one. -/
theorem Anchored.vectors_eq {r : WordRing} {n : ℕ} (hfit : s.Fits r (n + 1)) (h : s.Anchored P)
    {c : Fin (n + 1) → r.Elem} (hc : c ∈ r.span (n + 1) s.vectors) (hne : c 0 ≠ 0) :
    ∃ v rest, s.vectors = v :: rest ∧ P v ∧ ∀ u ∈ rest, u.getD 0 0 = 0 := by
  obtain ⟨slot, slots, hslots⟩ := List.exists_cons_of_length_eq_add_one hfit.length_slots
  have hfits : Slots.Fits r slots := (hslots ▸ hfit.slots_fit : Slots.Fits r (slot :: slots)).2
  have hrest (u : WordVec) (hu : u ∈ Slots.vectorsFrom 1 slots) : u.getD 0 0 = 0 :=
    (Slots.vectorsFrom_shape hfits hu).2.2 0 Nat.one_pos
  cases slot with
  | none =>
      -- with a vacant first slot the whole span has no constant
      refine (hne ?_).elim
      have hle : r.span (n + 1) s.vectors ≤
          LinearMap.ker (LinearMap.proj 0 : (Fin (n + 1) → r.Elem) →ₗ[r.Elem] r.Elem) := by
        refine Submodule.span_le.mpr ?_
        rintro _ ⟨u, hu, rfl⟩
        rw [GeneratorSet.vectors, hslots] at hu
        have hzero := congrArg r.value (hrest u hu)
        rwa [r.value_zero] at hzero
      exact hle hc
  | some x =>
      refine ⟨_, _, by rw [GeneratorSet.vectors, hslots, Slots.vectorsFrom], ?_, hrest⟩
      exact h x (by rw [hslots, List.head?_cons])

end GeneratorSet

namespace FlowGraph
variable {r : WordRing} {n : ℕ} {g : FlowGraph} {entry j i : ℕ} {v : WordVec}

/-- The vectors `e_j * M_1 * ... * M_k` for paths from `entry` to a node. -/
def Carries (r : WordRing) (n : ℕ) (g : FlowGraph) (entry j q : ℕ) (v : WordVec) : Prop :=
  ∃ ms, g.Path entry ms q ∧ v = ms.foldl (fun u m => r.apply m u) (WordVec.unit n j)

theorem carries_unit : g.Carries r n entry j entry (WordVec.unit n j) := ⟨[], .nil, rfl⟩

theorem Carries.step (h : g.Carries r n entry j i v) {e : Edge} (he : e ∈ g.outEdges i)
    {m : WordMatrix} (hm : m ∈ e.matrices) :
    g.Carries r n entry j e.target (r.apply m v) := by
  obtain ⟨ms, hpath, rfl⟩ := h
  refine ⟨ms ++ [m], hpath.snoc he hm, ?_⟩
  rw [List.foldl_append, List.foldl_cons, List.foldl_nil]

end FlowGraph

open FlowGraph

section Filled
variable {r : WordRing} {g g' : FlowGraph} {entry j q : ℕ} {v : WordVec}
  (hreaches : g'.Reaches = g.Reaches)
  (hout : ∀ i, g.Reaches entry i → g'.outEdges i = (g.outEdges i).map (Edge.filled r g.vars))

include hreaches hout

/-- A matrix on an edge where a path ends belongs to the edge's statement. -/
theorem FlowGraph.Path.exists_statement {ms : List WordMatrix} (hpath : g'.Path entry ms q)
    {e : Edge} (he : e ∈ g'.outEdges q) {m : WordMatrix} (hm : m ∈ e.matrices) :
    ∃ e₀ ∈ g.outEdges q, e₀.target = e.target ∧ m ∈ r.statementMatrices g.vars e₀.stmt := by
  rw [hout q (hreaches ▸ hpath.reaches)] at he
  obtain ⟨e₀, he₀, rfl⟩ := List.mem_map.mp he
  exact ⟨e₀, he₀, rfl, hm⟩

theorem FlowGraph.Carries.shape (h : g'.Carries r (g.vars.length + 1) entry j q v) :
    v.length = g.vars.length + 1 ∧ r.ReducedVec v ∧
      r.coords (g.vars.length + 1) v 0 =
        r.coords (g.vars.length + 1) (WordVec.unit (g.vars.length + 1) j) 0 := by
  obtain ⟨ms, hpath, rfl⟩ := h
  induction hpath with
  | nil => exact ⟨by simp [WordVec.unit], r.reducedVec_unit _ j, rfl⟩
  | @snoc ms q e m hpath he hm ih =>
      obtain ⟨e₀, -, -, hm⟩ := hpath.exists_statement hreaches hout he hm
      have hsquare := r.square_statementMatrices hm
      obtain ⟨hlen, -, hconst⟩ := ih
      rw [List.foldl_append, List.foldl_cons, List.foldl_nil]
      refine ⟨by simp [hsquare.cols_eq], r.reducedVec_apply _ _, ?_⟩
      rw [r.coords_apply hsquare.rows_eq hsquare.cols_eq, r.vecMul_constant hm, hconst]

/-- The constant slot tells the vectors that come from the first unit vector. -/
theorem FlowGraph.Carries.getD_zero (h : g'.Carries r (g.vars.length + 1) entry j q v) :
    v.getD 0 0 = if j = 0 then 1 else 0 := by
  obtain ⟨hlen, hred, hconst⟩ := h.shape hreaches hout
  cases v with
  | nil => simp at hlen
  | cons x xs =>
      refine r.value_inj (hred x List.mem_cons_self) ?_ ?_
      · split_ifs
        · exact r.reduced_one
        · exact r.reduced_zero
      · refine hconst.trans ?_
        simp [WordRing.coords, WordVec.unit, List.range_succ_eq_map, eq_comm]

/-- What comes from the first unit vector is the row of a visited state. -/
theorem FlowGraph.Carries.visits (hvars : g.vars.Nodup)
    (h : g'.Carries r (g.vars.length + 1) entry 0 q v) :
    ∃ σ, Visits r g entry q σ ∧ r.coords (g.vars.length + 1) v = r.augmented g.vars σ := by
  obtain ⟨ms, hpath, rfl⟩ := h
  induction hpath with
  | nil =>
      refine ⟨fun _ => 0, .start _, ?_⟩
      rw [r.augmented_origin]
      exact r.coords_unit 0
  | @snoc ms q e m hpath he hm ih =>
      obtain ⟨σ, hσ, hrow⟩ := ih
      obtain ⟨e₀, he₀, htarget, hm⟩ := hpath.exists_statement hreaches hout he hm
      obtain ⟨σ', hexec, hnext⟩ := r.exists_executes_of_mem hvars hm σ
      have hsquare := r.square_statementMatrices hm
      have hlen := (FlowGraph.Carries.shape (j := 0) hreaches hout ⟨ms, hpath, rfl⟩).1
      refine ⟨σ', htarget ▸ hσ.step he₀ hexec, ?_⟩
      rw [List.foldl_append, List.foldl_cons, List.foldl_nil,
        r.coords_apply hsquare.rows_eq hsquare.cols_eq, hrow, hnext]

end Filled

namespace Progress
variable {r : WordRing} {n : ℕ} {g : FlowGraph} {entry count : ℕ} {p : Progress}

/-- Queued vectors come from unit vectors, and what stands in a first slot comes
from the first one. The run has left the edges alone, and has given a fresh
generator set to `count` nodes. -/
structure Traced (r : WordRing) (n : ℕ) (g : FlowGraph) (entry count : ℕ) (p : Progress) :
    Prop where
  outEdges_eq : ∀ i, p.graph.outEdges i = g.outEdges i
  nodes_eq : p.stats.nodes = count
  queued : ∀ item ∈ p.queue, ∃ j, g.Carries r n entry j item.1 item.2
  anchored : ∀ i s, p.graph.generatorsAt i = some s → s.Anchored (g.Carries r n entry 0 i)

section Traced
variable (hconst : ∀ j q v, g.Carries r n entry j q v → v.getD 0 0 = if j = 0 then 1 else 0)

include hconst

theorem Traced.offer (h : p.Traced r n g entry count) {i j : ℕ} {v : WordVec}
    (hv : g.Carries r n entry j i v) : (p.offer i v).Traced r n g entry count := by
  rcases p.offer_cases i v with heq | ⟨e, heq⟩ | ⟨node, s, s', hnode, hgen, hins, heq⟩
  · rwa [heq]
  · rw [heq]
    exact ⟨h.outEdges_eq, h.nodes_eq, h.queued, h.anchored⟩
  · have hs : p.graph.generatorsAt i = some s :=
      Option.bind_eq_some_iff.mpr ⟨node, hnode, hgen⟩
    rw [heq]
    constructor
    case outEdges_eq =>
      intro k
      rw [← h.outEdges_eq k]
      exact p.graph.outEdges_modifyNode i k fun _ => rfl
    case nodes_eq => exact h.nodes_eq
    case queued =>
      intro item hitem
      rcases List.mem_append.mp hitem with hitem | hitem
      · exact h.queued item hitem
      · obtain rfl := List.mem_singleton.mp hitem
        exact ⟨j, hv⟩
    case anchored =>
      intro k s₁ hs₁
      rw [generatorsAt_modifyNode] at hs₁
      split_ifs at hs₁ with hik
      · subst hik
        rw [hnode, Option.bind_some] at hs₁
        obtain rfl := Option.some.inj hs₁
        refine (h.anchored i s hs).insert (hconst 0 i) ?_ hins
        -- a vector with a constant comes from the first unit vector
        intro hne
        rw [hconst j i v hv] at hne
        obtain rfl : j = 0 := by simpa using hne
        exact hv
      · exact h.anchored k s₁ hs₁

theorem Traced.send (h : p.Traced r n g entry count) {i j : ℕ} {v : WordVec}
    (hv : g.Carries r n entry j i v) {step : Edge × WordMatrix} (hstep : step ∈ steps g i) :
    (p.send r v step).Traced r n g entry count := by
  obtain ⟨he, hm⟩ := mem_steps.mp hstep
  rcases send_cases r v p step with heq | ⟨e, heq⟩ | heq
  · rwa [heq]
  · rw [heq]
    exact ⟨h.outEdges_eq, h.nodes_eq, h.queued, h.anchored⟩
  · rw [heq]
    exact h.offer hconst (hv.step he hm)

theorem Traced.turn (h : p.Traced r n g entry count) {item : ℕ × WordVec}
    {queue : List (ℕ × WordVec)} (hqueue : p.queue = item :: queue) :
    (p.turn r item queue).Traced r n g entry count := by
  obtain ⟨j, hv⟩ := h.queued item (hqueue ▸ List.mem_cons_self)
  have hsteps : steps p.graph item.1 = steps g item.1 := by
    rw [steps, h.outEdges_eq, steps]
  rw [Progress.turn, hsteps]
  refine List.foldlRecOn _ _ ?_ fun p hp step hstep => hp.send hconst hv hstep
  refine ⟨h.outEdges_eq, h.nodes_eq, ?_, h.anchored⟩
  intro q hq
  exact h.queued q (hqueue ▸ List.mem_cons_of_mem item hq)

theorem Traced.drain (h : p.Traced r n g entry count) (fuel : ℕ) :
    (p.drain r fuel).Traced r n g entry count :=
  drain_preserves (fun hp hqueue => hp.turn hconst hqueue) fuel h

end Traced

end Progress

namespace Analyzer
variable {g : FlowGraph} {entry : ℕ}

/-- Nodes that no procedure reaches keep what they have. -/
theorem generatorsAt_opened_eq (a : Analyzer) (hg : g.WellFormed) (entry : ℕ) {i : ℕ}
    (hi : ¬∃ name j, g.entry name = .ok j ∧ g.Reaches j i) :
    (a.opened g entry).graph.generatorsAt i = g.generatorsAt i := by
  obtain ⟨-, hnodes, -, -, hfail, -⟩ := a.materialized hg entry
  have hlt (i : ℕ) (hi : i ∈ g.reachAny g.entries) :
      i < (a.computed g entry).graph.nodes.size := by
    rw [hnodes]
    exact hg.lt_of_mem_reachAny hi
  have hnot : i ∉ g.reachAny g.entries := fun hmem => hi (hg.mem_reachAny_entries.mp hmem)
  obtain ⟨-, -, -, hgen, -⟩ := Progress.foldl_clear (r := a.ring) (a.vars + 1) hfail hlt
  rw [opened, hgen i, if_neg hnot, FlowGraph.generatorsAt, hnodes, FlowGraph.generatorsAt]

theorem traced_prepare (a : Analyzer) (hg : g.WellFormed) {name : String}
    (hentry : g.entry name = .ok entry) {g' : FlowGraph}
    (hout : ∀ i, (a.opened g entry).graph.outEdges i = g'.outEdges i)
    (hconst : ∀ j q v, g'.Carries a.ring (a.vars + 1) entry j q v →
      v.getD 0 0 = if j = 0 then 1 else 0) :
    (a.prepare g entry).Traced a.ring (a.vars + 1) g' entry (g.reachAny g.entries).length := by
  have hopen := a.opened_spec hg hentry
  rw [prepare_eq]
  refine List.foldlRecOn _ _ ?_ fun p hp i _ => hp.offer hconst carries_unit
  constructor
  case outEdges_eq => exact hout
  case nodes_eq => exact hopen.nodes_stat
  case queued => simp [hopen.queue_eq]
  case anchored =>
    intro i s hs
    obtain ⟨name, j, hname, hj⟩ := hopen.generated i s hs
    rw [hopen.generatorsAt_eq name j i hname hj] at hs
    obtain rfl := Option.some.inj hs
    exact GeneratorSet.anchored_empty _ _ _

/-- Every statement has a matrix, so some vector with a constant arrives. -/
theorem Solution.exists_constant {r : WordRing} {name : String} {g' : FlowGraph}
    (h : Solution ⟨r, g.vars.length, name⟩ g entry g') {q : ℕ} (hq : g.Reaches entry q) :
    ∃ c ∈ g'.spanAt r (g.vars.length + 1) q, c 0 = 1 := by
  induction hq with
  | refl => exact ⟨Pi.single 0 1, h.closed.unit_mem 0, Pi.single_eq_same 0 1⟩
  | @tail i k hi hstep ih =>
      obtain ⟨c, hc, hone⟩ := ih
      obtain ⟨e, he, rfl⟩ := List.mem_map.mp hstep
      obtain ⟨m, hm⟩ := List.exists_mem_of_ne_nil _ (r.statementMatrices_ne_nil g.vars e.stmt)
      have he' : e.filled r g.vars ∈ g'.outEdges i := by
        rw [h.outEdges_eq i hi]
        exact List.mem_map_of_mem he
      have hi' : g'.Reaches entry i := by rwa [reaches_congr h.skeleton_eq]
      exact ⟨_, h.closed.step_mem i hi' _ he' m hm c hc, (r.vecMul_constant hm c).trans hone⟩

section Finished
variable (a : Analyzer) (hg : g.WellFormed) (hvars : g.vars.length = a.vars)
  (hentry : g.entry a.entry = .ok entry)

include hg hvars hentry

theorem traced_drain :
    (∀ j q v, (a.run g).1.Carries a.ring (a.vars + 1) entry j q v →
      v.getD 0 0 = if j = 0 then 1 else 0) ∧
      (Progress.drain a.ring (a.fuel g) (a.prepare g entry)).Traced a.ring (a.vars + 1)
        (a.run g).1 entry (g.reachAny g.entries).length := by
  have hsol := a.solution_run hg hvars hentry
  have hconst (j q : ℕ) (v : WordVec)
      (h : (a.run g).1.Carries a.ring (a.vars + 1) entry j q v) :
      v.getD 0 0 = if j = 0 then 1 else 0 := by
    rw [← hvars] at h
    exact h.getD_zero (reaches_congr hsol.skeleton_eq) hsol.outEdges_eq
  have hout (i : ℕ) : (a.opened g entry).graph.outEdges i = (a.run g).1.outEdges i := by
    rw [(a.run_eq hg hvars hentry).1]
    exact ((a.closed_drain hg hentry hvars).1.regenerates.outEdges_eq i).symm
  exact ⟨hconst, (a.traced_prepare hg hentry hout hconst).drain hconst _⟩

theorem exists_anchor {q : ℕ} (hq : g.Reaches entry q) :
    ∃ s v rest, (a.run g).1.generatorsAt q = some s ∧ s.vectors = v :: rest ∧
      (a.run g).1.Carries a.ring (a.vars + 1) entry 0 q v ∧
      ∀ u ∈ rest, u.length = a.vars + 1 ∧ u.getD 0 0 = 0 := by
  have hsol := a.solution_run hg hvars hentry
  have htraced := (a.traced_drain hg hvars hentry).2
  have hunder := (a.closed_drain hg hentry hvars).1
  obtain ⟨s, hs, hfit⟩ :=
    hunder.fits q (by rwa [reaches_congr (a.opened_spec hg hentry).skeleton_eq])
  have hs' : (a.run g).1.generatorsAt q = some s := by rwa [(a.run_eq hg hvars hentry).1]
  obtain ⟨r, n, name⟩ := a
  obtain rfl : g.vars.length = n := hvars
  obtain ⟨c, hc, hone⟩ := hsol.exists_constant hq
  have hne : c 0 ≠ 0 := by
    intro hzero
    have hvalue : r.value 1 = 0 := r.value_one.trans (hone.symm.trans hzero)
    exact absurd ((r.value_eq_zero_iff r.reduced_one).mp hvalue) (by decide)
  rw [spanAt_of_eq_some hs'] at hc
  obtain ⟨v, rest, hvectors, hv, hrest⟩ := (htraced.anchored q s hs).vectors_eq hfit hc hne
  refine ⟨s, v, rest, hs', hvectors, hv, fun u hu => ⟨?_, hrest u hu⟩⟩
  exact (hfit.shape (hvectors ▸ List.mem_cons_of_mem v hu)).1

end Finished

/-- After a successful run, a node that the entry reaches has a generator set
that starts with the row of a visited state: a vector with lead 1 in the first
column that the matrices on a path make of the first unit vector. No other
vector of the set has a constant. Nodes that only other procedures reach have
empty sets, and nodes that no procedure reaches keep what they had. The number
of nodes that is reported counts those that some procedure reaches. -/
theorem anchor_run (hg : g.Built) (a : Analyzer) {found : Findings}
    (hrun : (a.run g).2 = .ok found) :
    g.entry a.entry = .ok found.entry ∧
      (∀ q, g.Reaches found.entry q → ∃ s v rest,
        (a.run g).1.generatorsAt q = some s ∧ s.vectors = v :: rest ∧
        v.leadIndex? = some 0 ∧ v.leadEntry = 1 ∧
        (a.run g).1.Carries a.ring (a.vars + 1) found.entry 0 q v ∧
        (∃ σ, Visits a.ring g found.entry q σ ∧
          a.ring.coords (g.vars.length + 1) v = a.ring.augmented g.vars σ) ∧
        ∀ u ∈ rest, u.length = a.vars + 1 ∧ u.getD 0 0 = 0) ∧
      (∀ q, ¬g.Reaches found.entry q → (∃ name j, g.entry name = .ok j ∧ g.Reaches j q) →
        (a.run g).1.generatorsAt q = some (.empty a.ring (a.vars + 1))) ∧
      (∀ q, (¬∃ name j, g.entry name = .ok j ∧ g.Reaches j q) →
        (a.run g).1.generatorsAt q = g.generatorsAt q) ∧
      found.stats.nodes = {q | ∃ name j, g.entry name = .ok j ∧ g.Reaches j q}.ncard := by
  obtain ⟨hvars, hentry⟩ := checks_of_run_eq_ok hrun
  have hwell := hg.wellFormed
  have hopen := a.opened_spec hwell hentry
  have hsol := a.solution_run hwell hvars hentry
  have hunder := (a.closed_drain hwell hentry hvars).1
  obtain ⟨hconst, htraced⟩ := a.traced_drain hwell hvars hentry
  -- nodes out of reach are as they were when the sets had been emptied
  have hothers (q : ℕ) (hq : ¬g.Reaches found.entry q) :
      (a.run g).1.generatorsAt q = (a.opened g found.entry).graph.generatorsAt q := by
    rw [(a.run_eq hwell hvars hentry).1]
    exact hunder.others q (by rwa [reaches_congr hopen.skeleton_eq])
  refine ⟨hentry, ?_, ?_, ?_, ?_⟩
  · intro q hq
    obtain ⟨s, v, rest, hs, hvectors, hv, hrest⟩ := a.exists_anchor hwell hvars hentry hq
    obtain ⟨hindex, hlead⟩ := WordVec.lead_of_getD_zero (hconst 0 q v hv)
    refine ⟨s, v, rest, hs, hvectors, hindex, hlead, hv, ?_, hrest⟩
    rw [← hvars] at hv
    exact hv.visits (reaches_congr hsol.skeleton_eq) hsol.outEdges_eq hwell.vars_nodup
  · rintro q hq ⟨name, j, hname, hj⟩
    rw [hothers q hq, hopen.generatorsAt_eq name j q hname hj]
  · intro q hq
    rw [hothers q fun hreach => hq ⟨a.entry, found.entry, hentry, hreach⟩,
      a.generatorsAt_opened_eq hwell found.entry hq]
  · have hstats : found.stats.nodes = (g.reachAny g.entries).length := by
      rw [a.run_eq_drain hwell hvars hentry] at hrun
      rw [← htraced.nodes_eq, ← Except.ok.inj hrun]
    rw [hstats]
    exact (ncard_eq_length (nodup_reachAny hwell.bounded hwell.entries_lt)
      fun _ => hwell.mem_reachAny_entries).symm

/-- The loop around `x = x + 2` beside another procedure and a node that no
procedure reaches. -/
def evenLoopAside : FlowGraph :=
  let aside := evenLoop.addEdge "other" "done" (some (.bin .assign (.var "x") (.num 2)))
  let both := aside.1.addProcedure "side" "other"
  (both.1.addNode "lost").1

theorem built_evenLoopAside : evenLoopAside.Built :=
  ((built_evenLoop.addEdge _ _ _).addProcedure _ _).addNode _

/-- Modulo 8, four of the five nodes get a set, and two of these stay empty. -/
theorem anchor_run_evenLoopAside :
    ∃ (a : Analyzer) (found : Findings) (s : GeneratorSet) (v : WordVec) (rest : List WordVec),
      (a.run evenLoopAside).2 = .ok found ∧
      (a.run evenLoopAside).1.generatorsAt 1 = some s ∧ s.vectors = v :: rest ∧
      v.leadEntry = 1 ∧ (a.run evenLoopAside).1.Carries a.ring 2 found.entry 0 1 v ∧
      rest = [[0, 2]] ∧
      (a.run evenLoopAside).1.generatorsAt 3 = some (.empty a.ring 2) ∧
      (a.run evenLoopAside).1.generatorsAt 4 = evenLoopAside.generatorsAt 4 ∧
      found.stats.nodes = 4 := by
  let a : Analyzer := ⟨.ofBits 3 (by decide) (by decide), 1, "main"⟩
  have hwell := built_evenLoopAside.wellFormed
  have hentry : evenLoopAside.entry a.entry = .ok 0 := by decide +kernel
  have hvars : evenLoopAside.vars.length = a.vars := by decide +kernel
  have hentries : evenLoopAside.entries = [0, 2] := by
    have hsorted : evenLoopAside.procedureNames = evenLoopAside.procedures.map Prod.fst :=
      List.mergeSort_of_pairwise (by decide +kernel)
    rw [entries, hsorted]
    decide +kernel
  have hvectors : ((a.run evenLoopAside).1.generatorsAt 1).map GeneratorSet.vectors =
      some [[1, 0], [0, 2]] := by
    rw [(a.run_eq hwell hvars hentry).1, prepare, hentries]
    decide +kernel
  have hmain (q : ℕ) : q ∈ evenLoopAside.reach 0 ↔ evenLoopAside.Reaches 0 q :=
    mem_reach hwell.bounded (by decide +kernel)
  have hany (q : ℕ) : q ∈ [0, 1, 2, 3] ↔
      ∃ name j, evenLoopAside.entry name = .ok j ∧ evenLoopAside.Reaches j q := by
    have hlist : evenLoopAside.reachAny [0, 2] = [0, 1, 2, 3] := by decide +kernel
    rw [← hlist, ← hentries]
    exact hwell.mem_reachAny_entries
  obtain ⟨-, found, hrun, hfound⟩ := a.run_eq hwell hvars hentry
  obtain ⟨-, hanchor, hempty, hkept, hcount⟩ := anchor_run built_evenLoopAside a hrun
  rw [hfound] at hanchor hempty
  obtain ⟨s, v, rest, hs, hv, -, hlead, hcarries, -⟩ := hanchor 1 ((hmain 1).mp (by decide +kernel))
  rw [hs, Option.map_some, hv] at hvectors
  obtain ⟨-, hrest⟩ := List.cons.inj (Option.some.inj hvectors)
  refine ⟨a, found, s, v, rest, hrun, hs, hv, hlead, hfound ▸ hcarries, hrest, ?_, ?_, ?_⟩
  · exact hempty 3 (fun h => absurd ((hmain 3).mpr h) (by decide +kernel))
      ((hany 3).mp (by decide))
  · exact hkept 4 fun h => absurd ((hany 4).mpr h) (by decide)
  · exact hcount.trans (ncard_eq_length (by decide) hany)

end Analyzer

end AffineRelations
