import AffineRelations.Proofs.Analysis.Termination

/-!
# What went before a run

A run does not depend on what earlier runs have left in a graph. Adding to a
graph and dropping what analyses wrote into it commute, so a graph with a
history has the skeleton of the graph that was built without any run. Two runs
of one analyzer on graphs with one skeleton go through the same turns: before
their loops start, both have the same generator sets and, as far as the entry
reaches, the same matrices. They may differ in what edges out of reach keep,
and neither loop looks at those.
-/
namespace AffineRelations

namespace FlowGraph

section Skeleton
variable (g : FlowGraph)

theorem find?_skeleton (id : String) : g.skeleton.find? id = g.find? id := by
  simp only [find?, skeleton, Array.findIdx?_map]
  rfl

theorem addNode_skeleton (id : String) :
    g.skeleton.addNode id = ((g.addNode id).1.skeleton, (g.addNode id).2) := by
  unfold addNode
  split_ifs with hid
  · rfl
  · rw [find?_skeleton]
    cases g.find? id with
    | some i => rfl
    | none => simp [skeleton, Node.bare]

theorem addNodeFor_skeleton (u : GraphUpdate) (id : String) :
    g.skeleton.addNodeFor u id = ((g.addNodeFor u id).1.skeleton, (g.addNodeFor u id).2) := by
  unfold addNodeFor
  split_ifs with hid
  · rfl
  · exact g.addNode_skeleton id

theorem connect_skeleton (source target : ℕ) (stmt : Option Expr) :
    g.skeleton.connect source target stmt = (g.connect source target stmt).skeleton := by
  let leave (n : Node) : Node := { n with out := n.out ++ [g.edges.size] }
  have hnodes : (g.nodes.map Node.bare).modify source leave =
      (g.nodes.modify source leave).map Node.bare := by
    apply Array.ext_getElem?
    intro i
    simp only [Array.getElem?_modify, Array.getElem?_map]
    split_ifs
    · cases g.nodes[i]? <;> rfl
    · rfl
  simp only [connect, skeleton, Array.size_map, Array.map_push]
  rw [hnodes]
  rfl

theorem addEdge_skeleton (source target : String) (stmt : Option Expr) :
    g.skeleton.addEdge source target stmt =
      ((g.addEdge source target stmt).1.skeleton, (g.addEdge source target stmt).2) := by
  unfold addEdge
  rw [addNodeFor_skeleton]
  rcases g.addNodeFor .edge source with ⟨g₁, e | i⟩
  · rfl
  · dsimp only
    rw [addNodeFor_skeleton]
    rcases g₁.addNodeFor .edge target with ⟨g₂, e | j⟩
    · rfl
    · simp only [connect_skeleton]
      simp [skeleton]

theorem addProcedure_skeleton (name entry : String) :
    g.skeleton.addProcedure name entry =
      ((g.addProcedure name entry).1.skeleton, (g.addProcedure name entry).2) := by
  unfold addProcedure
  split_ifs with hdup hdup' hdup'
  · rfl
  · exact (hdup' hdup).elim
  · exact (hdup hdup').elim
  · rw [addNodeFor_skeleton]
    rcases g.addNodeFor .procedure entry with ⟨g₁, e | i⟩ <;> rfl

end Skeleton

/-- What can be done to a graph: add to it, or analyse it. -/
inductive Action where
  | addNode (id : String)
  | addEdge (source target : String) (stmt : Option Expr)
  | addProcedure (name entry : String)
  | analyze (a : Analyzer)

def Action.isAnalysis : Action → Bool
  | .analyze _ => true
  | _ => false

def perform (g : FlowGraph) : Action → FlowGraph
  | .addNode id => (g.addNode id).1
  | .addEdge source target stmt => (g.addEdge source target stmt).1
  | .addProcedure name entry => (g.addProcedure name entry).1
  | .analyze a => (a.run g).1

theorem WellFormed.perform {g : FlowGraph} (h : g.WellFormed) (action : Action) :
    (g.perform action).WellFormed := by
  cases action with
  | addNode id => exact h.addNode id
  | addEdge source target stmt => exact h.addEdge source target stmt
  | addProcedure name entry => exact h.addProcedure name entry
  | analyze a => exact h.run a

/-- The graph after a sequence of actions. -/
def after (g : FlowGraph) (history : List Action) : FlowGraph := history.foldl perform g

/-- The actions of a history that are not analyses. -/
def additions (history : List Action) : List Action :=
  history.filter fun action => !action.isAnalysis

theorem WellFormed.after {g : FlowGraph} (h : g.WellFormed) (history : List Action) :
    (g.after history).WellFormed :=
  List.foldlRecOn history _ h fun _ hg action _ => hg.perform action

theorem skeleton_run {g : FlowGraph} (h : g.WellFormed) (a : Analyzer) :
    (a.run g).1.skeleton = g.skeleton := by
  rcases a.run_cases g with heq | ⟨entry, hvars, hentry⟩
  · rw [heq]
  · exact (a.solution_run h hvars hentry).skeleton_eq

/-- Adding to a graph and dropping what analyses wrote commute. -/
theorem skeleton_perform (g : FlowGraph) {action : Action} (h : action.isAnalysis = false) :
    (g.perform action).skeleton = g.skeleton.perform action := by
  cases action with
  | addNode id => exact (congrArg Prod.fst (g.addNode_skeleton id)).symm
  | addEdge source target stmt =>
      exact (congrArg Prod.fst (g.addEdge_skeleton source target stmt)).symm
  | addProcedure name entry =>
      exact (congrArg Prod.fst (g.addProcedure_skeleton name entry)).symm
  | analyze a => cases h

/-- A graph with a history has the skeleton that it would have without any
analysis. -/
theorem skeleton_after {g g' : FlowGraph} (hg : g.WellFormed) (h : g'.skeleton = g.skeleton)
    (history : List Action) :
    (g'.after (additions history)).skeleton = (g.after history).skeleton := by
  induction history generalizing g g' with
  | nil => exact h
  | cons action history ih =>
      cases hkind : action.isAnalysis with
      | true =>
          have hsame : g'.skeleton = (g.perform action).skeleton := by
            cases action with
            | analyze a => exact h.trans (skeleton_run hg a).symm
            | addNode | addEdge | addProcedure => cases hkind
          simpa [after, additions, hkind] using ih (hg.perform action) hsame
      | false =>
          have hsame : (g'.perform action).skeleton = (g.perform action).skeleton := by
            rw [skeleton_perform g' hkind, h, skeleton_perform g hkind]
          simpa [after, additions, hkind] using ih (hg.perform action) hsame

section Congruence
variable {g g' : FlowGraph} (h : g'.skeleton = g.skeleton)

include h

theorem explore_congr (steps : ℕ) (queue seen : List ℕ) :
    g'.explore steps queue seen = g.explore steps queue seen := by
  induction steps generalizing queue seen with
  | zero => rfl
  | succ steps ih =>
      cases queue with
      | nil => rfl
      | cons i queue => simp only [explore, targets_congr h, ih]

theorem reachAny_entries_congr : g'.reachAny g'.entries = g.reachAny g.entries := by
  have hbeyond : g'.reachBeyond = g.reachBeyond := by
    funext seen i
    rw [reachBeyond, explore_congr h, size_nodes_congr h, reachBeyond]
  have hentries : g'.entries = g.entries := by
    simp only [entries, procedureNames, procedures_congr h]
  rw [reachAny, hbeyond, hentries, reachAny]

theorem outEdges_filled_congr (r : WordRing) (vars : List String) (i : ℕ) :
    (g'.outEdges i).map (Edge.filled r vars) = (g.outEdges i).map (Edge.filled r vars) := by
  have hbare : Edge.filled r vars ∘ Edge.bare = Edge.filled r vars := rfl
  have hout := congrArg (List.map (Edge.filled r vars)) (outEdges_skeleton g' i)
  rw [h, outEdges_skeleton, List.map_map, List.map_map, hbare] at hout
  exact hout.symm

/-- The nodes of a graph are those of its skeleton with the generator sets. -/
theorem nodes_congr (hgen : ∀ i, g'.generatorsAt i = g.generatorsAt i) : g'.nodes = g.nodes := by
  have hbare : g'.nodes.map Node.bare = g.nodes.map Node.bare := congrArg FlowGraph.nodes h
  apply Array.ext_getElem?
  intro i
  have hi : g'.nodes[i]?.map Node.bare = g.nodes[i]?.map Node.bare := by
    rw [← Array.getElem?_map, hbare, Array.getElem?_map]
  have hs : g'.nodes[i]?.bind (·.generators) = g.nodes[i]?.bind (·.generators) := hgen i
  cases hn' : g'.nodes[i]? with
  | none => simpa [hn', eq_comm] using hi
  | some n' =>
      cases hn : g.nodes[i]? with
      | none => simp [hn', hn] at hi
      | some n =>
          simp only [hn', hn, Option.map_some, Option.some.injEq, Option.bind_some] at hi hs
          obtain ⟨id', out', gen'⟩ := n'
          obtain ⟨id, out, gen⟩ := n
          obtain rfl : gen' = gen := hs
          cases hi
          rfl

end Congruence

end FlowGraph

namespace Progress

/-- The states of two runs from one entry that differ at most in what edges out
of its reach keep, and in the matrices that had to be computed. -/
structure Alike (g : FlowGraph) (entry : ℕ) (p q : Progress) : Prop where
  skeleton_eq : p.graph.skeleton = g.skeleton
  nodes_eq : p.graph.nodes = q.graph.nodes
  outEdges_eq : ∀ i, g.Reaches entry i → p.graph.outEdges i = q.graph.outEdges i
  queue_eq : p.queue = q.queue
  queued : ∀ item ∈ p.queue, g.Reaches entry item.1
  nodes_stat : p.stats.nodes = q.stats.nodes
  pops_eq : p.stats.pops = q.stats.pops
  accepted_eq : p.stats.accepted = q.stats.accepted
  failure_eq : p.failure = q.failure

variable {g : FlowGraph} {entry : ℕ} {p q : Progress}

theorem Alike.offer (h : Alike g entry p q) {i : ℕ} (hi : g.Reaches entry i) (v : WordVec) :
    Alike g entry (p.offer i v) (q.offer i v) := by
  unfold Progress.offer
  rw [← h.nodes_eq, ← h.failure_eq]
  split_ifs
  · exact h
  rcases p.graph.nodes[i]? with _ | node
  · exact { h with failure_eq := rfl }
  rcases hs : node.generators with _ | s
  · simp only [hs]
    exact { h with failure_eq := rfl }
  rcases hins : s.insert v with e | ⟨_ | _, s'⟩
  · simp only [hs, hins]
    exact { h with failure_eq := rfl }
  · simp only [hs, hins]
    exact h
  · have hout (g : FlowGraph) (j : ℕ) : (g.modifyNode i fun n =>
        { n with generators := some s' }).outEdges j = g.outEdges j :=
      g.outEdges_modifyNode i j fun _ => rfl
    simp only [hs, hins]
    constructor
    case skeleton_eq =>
      rw [← h.skeleton_eq]
      exact p.graph.skeleton_modifyNode i fun _ => rfl
    case nodes_eq => simp only [FlowGraph.modifyNode, h.nodes_eq]
    case outEdges_eq =>
      intro j hj
      rw [hout, hout, h.outEdges_eq j hj]
    case queue_eq => simp only [h.queue_eq]
    case queued =>
      intro item hitem
      rcases List.mem_append.mp hitem with hitem | hitem
      · exact h.queued item hitem
      · rw [List.mem_singleton.mp hitem]
        exact hi
    case nodes_stat => exact h.nodes_stat
    case pops_eq => exact h.pops_eq
    case accepted_eq => exact congrArg (· + 1) h.accepted_eq
    case failure_eq => rfl

theorem Alike.send (h : Alike g entry p q) (r : WordRing) (v : WordVec)
    {step : Edge × WordMatrix} (hstep : g.Reaches entry step.1.target) :
    Alike g entry (p.send r v step) (q.send r v step) := by
  have hname : p.graph.edgeName step.1 = q.graph.edgeName step.1 := by
    simp only [FlowGraph.edgeName, FlowGraph.nodeId, h.nodes_eq]
  unfold Progress.send
  rw [← h.failure_eq, hname]
  split_ifs
  · exact h
  · split
    · exact { h with failure_eq := rfl }
    · split_ifs
      · exact h
      · exact h.offer hstep _

theorem Alike.foldl {α : Type} {f : Progress → α → Progress} {xs : List α}
    (hf : ∀ x ∈ xs, ∀ p q, Alike g entry p q → Alike g entry (f p x) (f q x))
    (h : Alike g entry p q) : Alike g entry (xs.foldl f p) (xs.foldl f q) := by
  induction xs generalizing p q with
  | nil => exact h
  | cons x xs ih =>
      exact ih (fun y hy => hf y (List.mem_cons_of_mem x hy)) (hf x List.mem_cons_self p q h)

theorem Alike.turn (h : Alike g entry p q) (r : WordRing) {item : ℕ × WordVec}
    {queue : List (ℕ × WordVec)} (hqueue : p.queue = item :: queue) :
    Alike g entry (p.turn r item queue) (q.turn r item queue) := by
  have hi : g.Reaches entry item.1 := h.queued item (hqueue ▸ List.mem_cons_self)
  have hsteps : steps q.graph item.1 = steps p.graph item.1 := by
    rw [steps, ← h.outEdges_eq item.1 hi, steps]
  have htarget (step : Edge × WordMatrix) (hstep : step ∈ steps p.graph item.1) :
      g.Reaches entry step.1.target := by
    refine hi.tail ?_
    rw [← FlowGraph.targets_congr h.skeleton_eq]
    exact List.mem_map_of_mem (FlowGraph.mem_steps.mp hstep).1
  rw [Progress.turn, Progress.turn, hsteps]
  refine Alike.foldl (fun step hstep p q hpq => hpq.send r item.2 (htarget step hstep)) ?_
  exact { h with
    queue_eq := rfl
    queued := fun it hit => h.queued it (hqueue ▸ List.mem_cons_of_mem item hit)
    pops_eq := congrArg (· + 1) h.pops_eq }

/-- Two loops from states that are alike go through the same turns. -/
theorem Alike.drain (h : Alike g entry p q) (r : WordRing) (fuel : ℕ) :
    Alike g entry (p.drain r fuel) (q.drain r fuel) := by
  induction fuel generalizing p q with
  | zero => exact h
  | succ fuel ih =>
      have hfailure := h.failure_eq
      have hqueue := h.queue_eq
      cases hfail : p.failure with
      | some e =>
          rw [hfail] at hfailure
          simpa [Progress.drain, hfail, ← hfailure] using h
      | none =>
          rw [hfail] at hfailure
          cases hitems : p.queue with
          | nil =>
              rw [hitems] at hqueue
              simpa [Progress.drain, hfail, ← hfailure, hitems, ← hqueue] using h
          | cons item queue =>
              rw [hitems] at hqueue
              rw [drain_cons hfail hitems, drain_cons hfailure.symm hqueue.symm]
              exact ih (h.turn r hitems)

end Progress

namespace Analyzer
open FlowGraph

section Congruence
variable (a : Analyzer) {g g' : FlowGraph} (hg : g.WellFormed) (hg' : g'.WellFormed)
  (h : g'.skeleton = g.skeleton)

include hg hg' h

/-- Whatever earlier runs have left is gone when the loop starts. -/
theorem alike_opened {name : String} {entry : ℕ} (hentry : g.entry name = .ok entry) :
    Progress.Alike g entry (a.opened g entry) (a.opened g' entry) := by
  have hentry' : g'.entry name = .ok entry := by rwa [entry_congr h]
  have hopen := a.opened_spec hg hentry
  have hopen' := a.opened_spec hg' hentry'
  have hskel : (a.opened g entry).graph.skeleton = (a.opened g' entry).graph.skeleton :=
    hopen.skeleton_eq.trans (h.symm.trans hopen'.skeleton_eq.symm)
  have htally := a.tallied_opened g entry
  have htally' := a.tallied_opened g' entry
  constructor
  case skeleton_eq => exact hopen.skeleton_eq
  case nodes_eq =>
    refine nodes_congr hskel fun i => ?_
    by_cases hi : ∃ name j, g.entry name = .ok j ∧ g.Reaches j i
    · obtain ⟨name, j, hname, hj⟩ := hi
      rw [hopen.generatorsAt_eq name j i hname hj, hopen'.generatorsAt_eq name j i
        (by rwa [entry_congr h]) (by rwa [reaches_congr h])]
    · -- no procedure ever led here, so no run has left a set
      have hnone : (a.opened g entry).graph.generatorsAt i = none :=
        Option.eq_none_iff_forall_not_mem.mpr fun s hs => hi (hopen.generated i s hs)
      have hnone' : (a.opened g' entry).graph.generatorsAt i = none := by
        refine Option.eq_none_iff_forall_not_mem.mpr fun s hs => hi ?_
        rw [← entry_congr h, ← reaches_congr h]
        exact hopen'.generated i s hs
      rw [hnone, hnone']
  case outEdges_eq =>
    intro i hi
    rw [hopen.outEdges_eq i hi, hopen'.outEdges_eq i (by rwa [reaches_congr h]), vars_congr h,
      outEdges_filled_congr h]
  case queue_eq => rw [hopen.queue_eq, hopen'.queue_eq]
  case queued => simp [hopen.queue_eq]
  case nodes_stat => rw [hopen.nodes_stat, hopen'.nodes_stat, reachAny_entries_congr h]
  case pops_eq => rw [htally.pops_eq, htally'.pops_eq]
  case accepted_eq =>
    rw [htally.accepted_eq, htally'.accepted_eq, hopen.queue_eq, hopen'.queue_eq]
  case failure_eq => rw [hopen.failure_eq, hopen'.failure_eq]

/-- Runs on graphs with one skeleton find the same. -/
theorem run_congr {found : Findings} (hrun : (a.run g).2 = .ok found) :
    ∃ found', (a.run g').2 = .ok found' ∧ found'.entry = found.entry ∧
      (a.run g).1.nodes = (a.run g').1.nodes ∧
      (∀ i, g.Reaches found.entry i → (a.run g).1.outEdges i = (a.run g').1.outEdges i) ∧
      found.stats.nodes = found'.stats.nodes ∧ found.stats.pops = found'.stats.pops ∧
      found.stats.accepted = found'.stats.accepted := by
  obtain ⟨hvars, hentry⟩ := checks_of_run_eq_ok hrun
  have hvars' : g'.vars.length = a.vars := by rwa [vars_congr h]
  have hentry' : g'.entry a.entry = .ok found.entry := by rwa [entry_congr h]
  have hprepare : Progress.Alike g found.entry (a.prepare g found.entry)
      (a.prepare g' found.entry) := by
    rw [prepare_eq, prepare_eq]
    exact (a.alike_opened hg hg' h hentry).foldl fun i _ p q hpq => hpq.offer .refl _
  have hfuel : a.fuel g' = a.fuel g := by rw [fuel, size_nodes_congr h, fuel]
  have hdrain := hprepare.drain a.ring (a.fuel g)
  have hleft := a.run_eq_drain hg hvars hentry
  have hright := a.run_eq_drain hg' hvars' hentry'
  rw [hfuel] at hright
  rw [hleft] at hrun ⊢
  rw [hright, ← congrArg Findings.stats (Except.ok.inj hrun)]
  exact ⟨_, rfl, rfl, hdrain.nodes_eq, hdrain.outEdges_eq, hdrain.nodes_stat, hdrain.pops_eq,
    hdrain.accepted_eq⟩

end Congruence

/-- A run does not depend on what went before. Let a graph come about by any
sequence of additions and analyses, and another one by the additions alone. A
run that succeeds on the first succeeds on the second, and leaves the same
nodes with the same generator sets, the same matrices on all edges that its
entry reaches, and the same counts of nodes and vectors. -/
theorem run_after_history {vars : List String} {start : FlowGraph}
    (hstart : ofVars vars = .ok start) (history : List Action) (a : Analyzer)
    {found : Findings} (hrun : (a.run (start.after history)).2 = .ok found) :
    ∃ found', (a.run (start.after (additions history))).2 = .ok found' ∧
      found'.entry = found.entry ∧
      (a.run (start.after history)).1.nodes =
        (a.run (start.after (additions history))).1.nodes ∧
      (∀ i, (start.after history).Reaches found.entry i →
        (a.run (start.after history)).1.outEdges i =
          (a.run (start.after (additions history))).1.outEdges i) ∧
      found.stats.nodes = found'.stats.nodes ∧ found.stats.pops = found'.stats.pops ∧
      found.stats.accepted = found'.stats.accepted := by
  have hwf := wellFormed_ofVars hstart
  exact a.run_congr (hwf.after history) (hwf.after (additions history))
    (skeleton_after hwf rfl history) hrun

/-- A history of two analyses modulo 32, one of which fails, between the
additions that make up the loop around `x = x + 2`. -/
def evenLoopHistory : List Action :=
  let b : Analyzer := ⟨.ofBits 5 (by decide) (by decide), 1, "main"⟩
  [.addEdge "start" "loop" (some (.bin .assign (.var "x") (.num 0))), .analyze b,
    .addProcedure "main" "start", .analyze b,
    .addEdge "loop" "loop" (some (.bin .assign (.var "x") (.bin .add (.var "x") (.num 2)))),
    .addNode "end"]

theorem run_after_evenLoopHistory : ∃ (a : Analyzer) (start : FlowGraph) (found found' : Findings),
    ofVars ["x"] = .ok start ∧ (a.run (start.after evenLoopHistory)).2 = .ok found ∧
      (a.run (start.after (additions evenLoopHistory))).2 = .ok found' ∧
      start.after evenLoopHistory ≠ start.after (additions evenLoopHistory) ∧
      (a.run (start.after evenLoopHistory)).1.nodes =
        (a.run (start.after (additions evenLoopHistory))).1.nodes := by
  let a : Analyzer := ⟨.ofBits 3 (by decide) (by decide), 1, "main"⟩
  let start : FlowGraph := ⟨["x"], #[], #[], []⟩
  have hstart : ofVars ["x"] = .ok start := by decide
  have hwf := (wellFormed_ofVars hstart).after evenLoopHistory
  have hvars : (start.after evenLoopHistory).vars.length = a.vars := by decide +kernel
  have hentry : (start.after evenLoopHistory).entry a.entry = .ok 0 := by decide +kernel
  have hdiffer : start.after evenLoopHistory ≠ start.after (additions evenLoopHistory) := by
    decide +kernel
  obtain ⟨-, found, hrun, -⟩ := a.run_eq hwf hvars hentry
  obtain ⟨found', hrun', -, hnodes, -⟩ := run_after_history hstart evenLoopHistory a hrun
  exact ⟨a, start, found, found', hstart, hrun, hrun', hdiffer, hnodes⟩

end Analyzer

end AffineRelations
