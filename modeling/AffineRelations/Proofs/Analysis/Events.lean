import AffineRelations.Proofs.Analysis.Anchor
import AffineRelations.Proofs.FlowGraph.Coherence

/-!
# What a run computes and announces

A run looks once at each edge that leaves a node within reach of the entry. If
the edge keeps no matrices, or keeps some for another width, the matrices of its
statement are computed, and this is counted and announced. Afterwards edges stay
as they are, and each event belongs to a vector that was accepted.

None of this depends on what edges kept before. So it holds for graphs as well
in which kept matrices have been overwritten by arbitrary ones.
-/
namespace AffineRelations

namespace Edge

/-- The edge after a run has looked at it. -/
def refreshed (r : WordRing) (vars : List String) (e : Edge) : Edge :=
  if e.Stale r then e.filled r vars else e

theorem bare_refreshed (r : WordRing) (vars : List String) (e : Edge) :
    (e.refreshed r vars).bare = e.bare := by
  unfold refreshed
  split_ifs <;> rfl

theorem not_stale_refreshed (r : WordRing) (vars : List String) (e : Edge) :
    ¬(e.refreshed r vars).Stale r := by
  unfold refreshed
  split_ifs with hstale
  · rintro (hnil | hwidth)
    · exact r.statementMatrices_ne_nil vars e.stmt hnil
    · exact hwidth rfl
  · exact hstale

end Edge

namespace Progress
variable {r : WordRing} {g : FlowGraph} {p q : Progress}

/-- What is announced when an edge is looked at. -/
def announcement (r : WordRing) (g : FlowGraph) (k : ℕ) : Option Event :=
  g.edges[k]?.bind fun e =>
    if e.Stale r then some (.matrices (e.filled r g.vars) (g.edgeName e)) else none

theorem announcement_eq_some_iff {k : ℕ} {event : Event} :
    announcement r g k = some event ↔ ∃ e, g.edges[k]? = some e ∧ e.Stale r ∧
      event = .matrices (e.filled r g.vars) (g.edgeName e) := by
  rw [announcement, Option.bind_eq_some_iff]
  refine exists_congr fun e => and_congr_right fun _ => ?_
  split_ifs with hstale
  · simp [hstale, eq_comm]
  · simp [hstale]

theorem isSome_announcement_iff {k : ℕ} :
    (announcement r g k).isSome ↔ ∃ e, g.edges[k]? = some e ∧ e.Stale r := by
  rw [Option.isSome_iff_exists]
  constructor
  · rintro ⟨event, hevent⟩
    obtain ⟨e, he, hstale, -⟩ := announcement_eq_some_iff.mp hevent
    exact ⟨e, he, hstale⟩
  · rintro ⟨e, he, hstale⟩
    exact ⟨_, announcement_eq_some_iff.mpr ⟨e, he, hstale, rfl⟩⟩

/-- Announcements come in the order of the edges that they are about. -/
theorem forall₂_announcement (ks : List ℕ) :
    List.Forall₂ (fun k event => announcement r g k = some event)
      (ks.filter fun k => (announcement r g k).isSome) (ks.filterMap (announcement r g)) := by
  induction ks with
  | nil => exact .nil
  | cons k ks ih =>
      cases hk : announcement r g k with
      | none => simpa [hk] using ih
      | some event => simpa [hk] using ih

theorem skeleton_materialize (p : Progress) (k : ℕ) :
    (p.materialize r k).graph.skeleton = p.graph.skeleton := by
  rcases p.materialize_cases r k with heq | ⟨e, heq⟩ | ⟨e, he, heq⟩
  · rw [heq]
  · rw [heq]
    rfl
  · rw [heq]
    refine p.graph.skeleton_modifyEdge k fun e' he' => ?_
    obtain rfl := Option.some.inj (he.symm.trans he')
    rfl

/-- The second state comes from the first by looking at the edges of a list,
each of which occurs once. -/
structure Computed (r : WordRing) (ks : List ℕ) (p q : Progress) : Prop where
  vars_eq : q.graph.vars = p.graph.vars
  nodes_eq : q.graph.nodes = p.graph.nodes
  edges_eq : ∀ k, q.graph.edges[k]? =
    if k ∈ ks then p.graph.edges[k]?.map (Edge.refreshed r p.graph.vars) else p.graph.edges[k]?
  events_eq : q.events.toList = p.events.toList ++ ks.filterMap (announcement r p.graph)
  counted_eq : q.stats.edges = p.stats.edges + (ks.filterMap (announcement r p.graph)).length
  accepted_eq : q.stats.accepted = p.stats.accepted
  failure_eq : q.failure = p.failure

theorem Computed.nil (r : WordRing) (p : Progress) : Computed r [] p p := by
  constructor <;> simp

theorem computed_materialize (r : WordRing) (hfail : p.failure = none) {k : ℕ}
    (hk : k < p.graph.edges.size) : Computed r [k] p (p.materialize r k) := by
  have he := Array.getElem?_eq_getElem hk
  generalize p.graph.edges[k] = e at he
  by_cases hstale : e.Stale r
  swap
  · have hsilent : announcement r p.graph k = none := by
      rw [announcement, he, Option.bind_some, if_neg hstale]
    rw [materialize_of_not_stale hfail he hstale]
    refine ⟨rfl, rfl, ?_, by simp [hsilent], by simp [hsilent], rfl, rfl⟩
    intro j
    split_ifs with hj
    · obtain rfl := List.mem_singleton.mp hj
      rw [he, Option.map_some, Edge.refreshed, if_neg hstale]
    · rfl
  · have hannounced : announcement r p.graph k =
        some (.matrices (e.filled r p.graph.vars) (p.graph.edgeName e)) :=
      announcement_eq_some_iff.mpr ⟨e, he, hstale, rfl⟩
    rw [materialize_of_stale hfail he hstale]
    refine ⟨rfl, rfl, ?_, by simp [hannounced], by simp [hannounced], rfl, rfl⟩
    intro j
    simp only [FlowGraph.modifyEdge, Array.getElem?_modify, List.mem_singleton, eq_comm (a := k)]
    split_ifs with hj
    · subst hj
      rw [he, Option.map_some, Option.map_some, Edge.refreshed, if_pos hstale]
    · rfl

/-- Looking at some edges does not change what is announced for others. -/
theorem Computed.announcement_eq {ks : List ℕ} (h : Computed r ks p q) {k : ℕ} (hk : k ∉ ks) :
    announcement r q.graph k = announcement r p.graph k := by
  unfold announcement FlowGraph.edgeName FlowGraph.nodeId
  rw [h.edges_eq k, if_neg hk, h.vars_eq, h.nodes_eq]

theorem Computed.append {ks ls : List ℕ} {s : Progress} (h : Computed r ks p q)
    (h' : Computed r ls q s) (hdisj : ks.Disjoint ls) : Computed r (ks ++ ls) p s := by
  have hsame : ls.filterMap (announcement r q.graph) = ls.filterMap (announcement r p.graph) :=
    List.filterMap_congr fun k hk => h.announcement_eq fun hk' => hdisj hk' hk
  refine ⟨h'.vars_eq.trans h.vars_eq, h'.nodes_eq.trans h.nodes_eq, ?_, ?_, ?_,
    h'.accepted_eq.trans h.accepted_eq, h'.failure_eq.trans h.failure_eq⟩
  · intro k
    rw [h'.edges_eq k, h.edges_eq k, h.vars_eq]
    by_cases hk : k ∈ ks
    · have hk' : k ∉ ls := fun hmem => hdisj hk hmem
      simp [hk, hk']
    · simp [hk]
  · rw [h'.events_eq, h.events_eq, hsame, List.filterMap_append, List.append_assoc]
  · rw [h'.counted_eq, h.counted_eq, hsame, List.filterMap_append, List.length_append,
      Nat.add_assoc]

/-- The first phase, in which no edge comes twice. -/
theorem computed_foldl_materialize (r : WordRing) (hfail : p.failure = none) {ks : List ℕ}
    (h : ks.Nodup) (hlt : ∀ k ∈ ks, k < p.graph.edges.size) :
    Computed r ks p (ks.foldl (materialize r) p) := by
  induction ks generalizing p with
  | nil => exact .nil r p
  | cons k ks ih =>
      obtain ⟨hk, hks⟩ := List.nodup_cons.mp h
      have hstep := computed_materialize r hfail (hlt k List.mem_cons_self)
      have hsize : (p.materialize r k).graph.edges.size = p.graph.edges.size :=
        FlowGraph.size_edges_congr (p.skeleton_materialize k)
      have hrest := ih (hstep.failure_eq.trans hfail) hks
        fun j hj => hsize ▸ hlt j (List.mem_cons_of_mem k hj)
      exact hstep.append hrest (List.singleton_disjoint.mpr hk)

/-- Since the state `q` the edges are as they were, and every event says that
a generator set has grown, and has been counted. -/
structure Logged (q p : Progress) : Prop where
  skeleton_eq : p.graph.skeleton = q.graph.skeleton
  edges_eq : p.graph.edges = q.graph.edges
  counted_eq : p.stats.edges = q.stats.edges
  events_eq : ∃ changes : List Event, p.events.toList = q.events.toList ++ changes ∧
    (∀ event ∈ changes, ∃ node set, event = .generators node set) ∧
    p.stats.accepted = q.stats.accepted + changes.length

theorem Logged.refl (p : Progress) : Logged p p :=
  ⟨rfl, rfl, rfl, [], by simp⟩

theorem Logged.clear (h : Logged q p) (dim i : ℕ) : Logged q (p.clear r dim i) := by
  rcases p.clear_cases r dim i with heq | ⟨e, heq⟩ | heq
  · rwa [heq]
  · rw [heq]
    exact ⟨h.skeleton_eq, h.edges_eq, h.counted_eq, h.events_eq⟩
  · rw [heq]
    refine ⟨?_, h.edges_eq, h.counted_eq, h.events_eq⟩
    rw [← h.skeleton_eq]
    exact p.graph.skeleton_modifyNode i fun _ => rfl

theorem Logged.offer (h : Logged q p) (i : ℕ) (v : WordVec) : Logged q (p.offer i v) := by
  rcases p.offer_cases i v with heq | ⟨e, heq⟩ | ⟨node, s, s', -, -, -, heq⟩
  · rwa [heq]
  · rw [heq]
    exact ⟨h.skeleton_eq, h.edges_eq, h.counted_eq, h.events_eq⟩
  · obtain ⟨changes, hevents, hchanges, haccepted⟩ := h.events_eq
    have hskel : (p.offer i v).graph.skeleton = p.graph.skeleton := by
      rw [heq]
      exact p.graph.skeleton_modifyNode i fun _ => rfl
    rw [heq] at hskel ⊢
    refine ⟨hskel.trans h.skeleton_eq, h.edges_eq, h.counted_eq,
      changes ++ [.generators node.id s'], ?_, ?_, ?_⟩
    · rw [Array.toList_push, hevents, List.append_assoc]
    · intro event hevent
      rcases List.mem_append.mp hevent with hold | hnew
      · exact hchanges event hold
      · exact ⟨node.id, s', List.mem_singleton.mp hnew⟩
    · rw [List.length_append, List.length_singleton]
      dsimp only
      omega

theorem Logged.send (h : Logged q p) (v : WordVec) (step : Edge × WordMatrix) :
    Logged q (p.send r v step) := by
  rcases send_cases r v p step with heq | ⟨e, heq⟩ | heq
  · rwa [heq]
  · rw [heq]
    exact ⟨h.skeleton_eq, h.edges_eq, h.counted_eq, h.events_eq⟩
  · rw [heq]
    exact h.offer _ _

theorem Logged.turn (h : Logged q p) (item : ℕ × WordVec) (queue : List (ℕ × WordVec)) :
    Logged q (p.turn r item queue) := by
  refine List.foldlRecOn _ _ ?_ fun p hp step _ => hp.send item.2 step
  exact ⟨h.skeleton_eq, h.edges_eq, h.counted_eq, h.events_eq⟩

theorem Logged.drain (h : Logged q p) (fuel : ℕ) : Logged q (p.drain r fuel) :=
  drain_preserves (fun hp _ => hp.turn _ _) fuel h

end Progress

namespace Analyzer
variable {g : FlowGraph} {entry : ℕ}

/-- The later phases add changes of generator sets to what has been announced. -/
theorem logged_drain (a : Analyzer) (g : FlowGraph) (entry fuel : ℕ) :
    Progress.Logged (a.computed g entry) ((a.prepare g entry).drain a.ring fuel) := by
  have hopened : Progress.Logged (a.computed g entry) (a.opened g entry) :=
    List.foldlRecOn _ _ (.refl _) fun p hp i _ => hp.clear _ i
  have hprepared : Progress.Logged (a.computed g entry) (a.prepare g entry) := by
    rw [prepare_eq]
    exact List.foldlRecOn _ _ hopened fun p hp i _ => hp.offer _ _
  exact hprepared.drain fuel

/-- The state that a run ends with, if its checks are passed. -/
theorem run_eq_of_checks (a : Analyzer) (hvars : g.vars.length = a.vars)
    (hentry : g.entry a.entry = .ok entry) :
    (a.run g).1 = ((a.prepare g entry).drain a.ring (a.fuel g)).graph ∧
      ∀ found, (a.run g).2 = .ok found →
        found.stats = ((a.prepare g entry).drain a.ring (a.fuel g)).stats ∧
        found.events = ((a.prepare g entry).drain a.ring (a.fuel g)).events.toList := by
  rw [run, if_neg (not_not.mpr hvars), hentry]
  refine ⟨rfl, fun found hfound => ?_⟩
  dsimp only at hfound
  split at hfound
  · cases hfound
  · obtain rfl := Except.ok.inj hfound
    exact ⟨rfl, rfl⟩

/-- No run touches more than matrices and generator sets, whatever it finds
there. -/
theorem run_skeleton (a : Analyzer) (g : FlowGraph) : (a.run g).1.skeleton = g.skeleton := by
  rcases a.run_cases g with heq | ⟨entry, hvars, hentry⟩
  · rw [heq]
  · have hcomputed : (a.computed g entry).graph.skeleton = g.skeleton :=
      List.foldlRecOn (motive := fun p : Progress => p.graph.skeleton = g.skeleton) _ _ rfl
        fun p hp k _ => (p.skeleton_materialize k).trans hp
    rw [(a.run_eq_of_checks hvars hentry).1]
    exact (a.logged_drain g entry _).skeleton_eq.trans hcomputed

end Analyzer

namespace FlowGraph
variable {g : FlowGraph}

theorem mem_leaving {i k : ℕ} :
    k ∈ g.leaving i ↔ ∃ e, g.edges[k]? = some e ∧ e.source = i := by
  rw [leaving, List.mem_filter, List.mem_range, beq_iff_eq, Option.map_eq_some_iff]
  constructor
  · exact fun h => h.2
  · rintro ⟨e, he, hi⟩
    exact ⟨(Array.getElem?_eq_some_iff.mp he).1, e, he, hi⟩

section Coherent
variable (h : g.Coherent)

include h

theorem Coherent.leaving_eq_flatMap (nodes : List ℕ) :
    Progress.leaving g nodes = nodes.flatMap g.leaving := by
  unfold Progress.leaving
  congr 1
  funext i
  cases hi : g.nodes[i]? with
  | none => exact (leaving_of_size_le h (Array.getElem?_eq_none_iff.mp hi)).symm
  | some n => exact h.out_eq i n hi

/-- The edges that leave some nodes are those whose source is among them. -/
theorem Coherent.mem_leaving {nodes : List ℕ} {k : ℕ} :
    k ∈ Progress.leaving g nodes ↔ ∃ e, g.edges[k]? = some e ∧ e.source ∈ nodes := by
  rw [h.leaving_eq_flatMap, List.mem_flatMap]
  constructor
  · rintro ⟨i, hi, hk⟩
    obtain ⟨e, he, rfl⟩ := FlowGraph.mem_leaving.mp hk
    exact ⟨e, he, hi⟩
  · rintro ⟨e, he, hmem⟩
    exact ⟨e.source, hmem, FlowGraph.mem_leaving.mpr ⟨e, he, rfl⟩⟩

/-- An edge leaves one node only. -/
theorem Coherent.nodup_leaving {nodes : List ℕ} (hnodes : nodes.Nodup) :
    (Progress.leaving g nodes).Nodup := by
  rw [h.leaving_eq_flatMap, List.nodup_flatMap]
  constructor
  · intro i _
    exact List.nodup_range.filter _
  · refine hnodes.imp fun {i j} hij k hi hj => hij ?_
    obtain ⟨e, he, rfl⟩ := FlowGraph.mem_leaving.mp hi
    obtain ⟨e', he', rfl⟩ := FlowGraph.mem_leaving.mp hj
    rw [Option.some.inj (he.symm.trans he')]

theorem Coherent.bounded : g.Bounded := by
  intro i j hj
  obtain ⟨e, he, rfl⟩ := List.mem_map.mp hj
  rw [h.outEdges_eq] at he
  obtain ⟨k, hk⟩ := List.mem_iff_getElem?.mp (List.mem_of_mem_filter he)
  exact (h.edge_ends k e (by simpa using hk)).2

theorem Coherent.lt_of_entry {name : String} {i : ℕ} (hi : g.entry name = .ok i) :
    i < g.nodes.size := by
  unfold entry at hi
  split at hi
  · next q hq =>
      obtain rfl := Except.ok.inj hi
      exact h.entry_lt q (List.mem_of_find?_eq_some hq)
  · cases hi

end Coherent

/-- The graphs that additions and analyses lead to when the matrices that edges
keep may be overwritten in between. -/
inductive Assembled : FlowGraph → Prop
  | ofVars {vars : List String} {g : FlowGraph} : ofVars vars = .ok g → Assembled g
  | perform {g : FlowGraph} (action : Action) : Assembled g → Assembled (g.perform action)
  | overwrite {g : FlowGraph} (k : ℕ) (matrices : List WordMatrix) (width : ℤ) : Assembled g →
      Assembled (g.modifyEdge k fun e => { e with matrices := matrices, width := width })

theorem Assembled.coherent (h : g.Assembled) : g.Coherent := by
  induction h with
  | ofVars h => exact coherent_ofVars h
  | @perform g action _ ih =>
      cases action with
      | addNode id => exact (g.growsTo_addNode id).preserves Coherent.grows ih
      | addEdge source target stmt =>
          exact (g.growsTo_addEdge source target stmt).preserves Coherent.grows ih
      | addProcedure name entry =>
          exact (g.growsTo_addProcedure name entry).preserves Coherent.grows ih
      | analyze a => exact ih.of_skeleton_eq (a.run_skeleton g)
  | @overwrite g k matrices width _ ih =>
      exact ih.of_skeleton_eq (g.skeleton_modifyEdge k fun _ _ => rfl)

end FlowGraph

namespace Analyzer
open FlowGraph
variable {g : FlowGraph} {entry : ℕ}

/-- The edges that a run computes matrices for, in the order in which it meets
them. -/
def staleEdges (a : Analyzer) (g : FlowGraph) (entry : ℕ) : List ℕ :=
  (Progress.leaving g (g.reach entry)).filter fun k => (Progress.announcement a.ring g k).isSome

section Coherent
variable (a : Analyzer) (h : g.Coherent) (hentry : g.entry a.entry = .ok entry)

include h hentry

theorem mem_leaving_reach {k : ℕ} : k ∈ Progress.leaving g (g.reach entry) ↔
    ∃ e, g.edges[k]? = some e ∧ g.Reaches entry e.source := by
  rw [h.mem_leaving]
  refine exists_congr fun e => and_congr_right fun _ => ?_
  exact mem_reach h.bounded (h.lt_of_entry hentry)

/-- The search meets no node twice, so no edge comes twice. -/
theorem nodup_leaving_reach : (Progress.leaving g (g.reach entry)).Nodup :=
  h.nodup_leaving (closedList_reach h.bounded (h.lt_of_entry hentry)).nodup

theorem mem_staleEdges {k : ℕ} : k ∈ a.staleEdges g entry ↔
    ∃ e, g.edges[k]? = some e ∧ g.Reaches entry e.source ∧ e.Stale a.ring := by
  rw [staleEdges, List.mem_filter, a.mem_leaving_reach h hentry, Progress.isSome_announcement_iff]
  constructor
  · rintro ⟨⟨e, he, hreach⟩, e', he', hstale⟩
    obtain rfl := Option.some.inj (he.symm.trans he')
    exact ⟨e, he, hreach, hstale⟩
  · rintro ⟨e, he, hreach, hstale⟩
    exact ⟨⟨e, he, hreach⟩, e, he, hstale⟩

theorem computed_start : Progress.Computed a.ring (Progress.leaving g (g.reach entry)) (.start g)
    (a.computed g entry) := by
  refine Progress.computed_foldl_materialize a.ring rfl (a.nodup_leaving_reach h hentry) ?_
  intro k hk
  obtain ⟨e, he, -⟩ := h.mem_leaving.mp hk
  exact (Array.getElem?_eq_some_iff.mp he).1

section Edges
variable (hvars : g.vars.length = a.vars)

include hvars

theorem edges_run (k : ℕ) :
    (a.run g).1.edges[k]? = if k ∈ Progress.leaving g (g.reach entry) then
      g.edges[k]?.map (Edge.refreshed a.ring g.vars) else g.edges[k]? := by
  rw [(a.run_eq_of_checks hvars hentry).1, (a.logged_drain g entry _).edges_eq]
  exact (a.computed_start h hentry).edges_eq k

theorem edges_run_of_reaches {k : ℕ} {e : Edge} (he : g.edges[k]? = some e)
    (hreach : g.Reaches entry e.source) :
    (a.run g).1.edges[k]? = some (e.refreshed a.ring g.vars) := by
  rw [a.edges_run h hentry hvars, if_pos ((a.mem_leaving_reach h hentry).mpr ⟨e, he, hreach⟩), he,
    Option.map_some]

theorem edges_run_of_notMem {k : ℕ} (hk : k ∉ a.staleEdges g entry) :
    (a.run g).1.edges[k]? = g.edges[k]? := by
  by_cases hleaves : k ∈ Progress.leaving g (g.reach entry)
  · obtain ⟨e, he, hreach⟩ := (a.mem_leaving_reach h hentry).mp hleaves
    have hfresh : ¬e.Stale a.ring := fun hstale =>
      hk ((a.mem_staleEdges h hentry).mpr ⟨e, he, hreach, hstale⟩)
    rw [a.edges_run_of_reaches h hentry hvars he hreach, he, Edge.refreshed, if_neg hfresh]
  · rw [a.edges_run h hentry hvars, if_neg hleaves]

/-- Each announcement is about the next of the edges, as the run leaves it. -/
theorem forall₂_staleEdges : List.Forall₂ (fun k event => ∃ e, g.edges[k]? = some e ∧
      (a.run g).1.edges[k]? = some (e.filled a.ring g.vars) ∧
      event = .matrices (e.filled a.ring g.vars) (g.edgeName e)) (a.staleEdges g entry)
    ((Progress.leaving g (g.reach entry)).filterMap (Progress.announcement a.ring g)) := by
  have hpairs := List.forall₂_iff_zip.mp
    (Progress.forall₂_announcement (r := a.ring) (g := g) (Progress.leaving g (g.reach entry)))
  refine List.forall₂_iff_zip.mpr ⟨hpairs.1, fun {k event} hpair => ?_⟩
  obtain ⟨e, he, hstale, hevent⟩ := Progress.announcement_eq_some_iff.mp (hpairs.2 hpair)
  obtain ⟨e', he', hreach, -⟩ := (a.mem_staleEdges h hentry).mp (List.of_mem_zip hpair).1
  obtain rfl := Option.some.inj (he.symm.trans he')
  refine ⟨e, he, ?_, hevent⟩
  rw [a.edges_run_of_reaches h hentry hvars he hreach, Edge.refreshed, if_pos hstale]

end Edges

end Coherent

/-- A successful run announces first the edges for which it has computed
matrices. These are the edges within reach of the entry that kept no matrices
for the width, and each is announced once, with its new matrices. What follows
are the vectors that have made a generator set grow. Both kinds are counted.
Afterwards every edge within reach keeps matrices for the width, and all edges
that were not announced keep what they kept before. -/
theorem events_run {g : FlowGraph} (hg : g.Assembled) (a : Analyzer) {found : Findings}
    (hrun : (a.run g).2 = .ok found) :
    g.entry a.entry = .ok found.entry ∧
      ∃ (ks : List ℕ) (computed changes : List Event),
        found.events = computed ++ changes ∧ ks.Nodup ∧
        (∀ k, k ∈ ks ↔ ∃ e, g.edges[k]? = some e ∧ g.Reaches found.entry e.source ∧
          e.Stale a.ring) ∧
        List.Forall₂ (fun k event => ∃ e, g.edges[k]? = some e ∧
          (a.run g).1.edges[k]? = some (e.filled a.ring g.vars) ∧
          event = .matrices (e.filled a.ring g.vars) (g.edgeName e)) ks computed ∧
        (∀ event ∈ changes, ∃ node set, event = .generators node set) ∧
        found.stats.edges = computed.length ∧ found.stats.accepted = changes.length ∧
        (∀ (k : ℕ) (e : Edge), g.edges[k]? = some e → g.Reaches found.entry e.source →
          ∃ e', (a.run g).1.edges[k]? = some e' ∧ e'.bare = e.bare ∧ e'.matrices ≠ [] ∧
            e'.width = a.ring.width) ∧
        ∀ k ∉ ks, (a.run g).1.edges[k]? = g.edges[k]? := by
  obtain ⟨hvars, hentry⟩ := checks_of_run_eq_ok hrun
  have hcoherent := hg.coherent
  have hcomputed := a.computed_start hcoherent hentry
  have hlogged := a.logged_drain g found.entry (a.fuel g)
  obtain ⟨hstats, hevents⟩ := (a.run_eq_of_checks hvars hentry).2 found hrun
  obtain ⟨changes, hlog, hchanges, haccepted⟩ := hlogged.events_eq
  refine ⟨hentry, a.staleEdges g found.entry, _, changes, ?_,
    (a.nodup_leaving_reach hcoherent hentry).filter _,
    fun k => a.mem_staleEdges hcoherent hentry, a.forall₂_staleEdges hcoherent hentry hvars,
    hchanges, ?_, ?_, ?_, fun k => a.edges_run_of_notMem hcoherent hentry hvars⟩
  · rw [hevents, hlog, hcomputed.events_eq]
    rfl
  · rw [hstats, hlogged.counted_eq, hcomputed.counted_eq]
    exact Nat.zero_add _
  · rw [hstats, haccepted, hcomputed.accepted_eq]
    exact Nat.zero_add _
  · intro k e he hreach
    have hkept := e.not_stale_refreshed a.ring g.vars
    rw [Edge.Stale, not_or, not_not] at hkept
    exact ⟨_, a.edges_run_of_reaches hcoherent hentry hvars he hreach,
      e.bare_refreshed a.ring g.vars, hkept⟩

end Analyzer

namespace FlowGraph

/-- The loop around `x = x + 2` with a second edge from the loop to itself and
an edge out of reach. It has been analysed, and then what the first edge keeps
has been overwritten by a matrix for the width 3. -/
def overwrittenLoop (a : Analyzer) : FlowGraph :=
  let twice := evenLoop.perform (.addEdge "loop" "loop" none)
  let aside := twice.perform (.addEdge "aside" "loop" none)
  (aside.perform (.analyze a)).modifyEdge 0 fun e =>
    { e with matrices := [WordRing.identityOf 2], width := 3 }

theorem assembled_overwrittenLoop (a : Analyzer) : (overwrittenLoop a).Assembled := by
  have hvars : ofVars ["x"] = .ok ⟨["x"], #[], #[], []⟩ := by decide
  have hstart := (Assembled.ofVars hvars).perform
    (.addEdge "start" "loop" (some (.bin .assign (.var "x") (.num 0))))
  have hloop := hstart.perform
    (.addEdge "loop" "loop" (some (.bin .assign (.var "x") (.bin .add (.var "x") (.num 2)))))
  have heven : evenLoop.Assembled := hloop.perform (.addProcedure "main" "start")
  exact (((heven.perform _).perform _).perform (.analyze a)).overwrite 0 [WordRing.identityOf 2] 3

end FlowGraph

namespace Analyzer
open FlowGraph

/-- Modulo 8, after an analysis modulo 32, matrices are computed for both loops
but not for the edge that was overwritten, and the edge out of reach stays
without any. -/
theorem events_run_overwrittenLoop :
    ∃ (a : Analyzer) (g : FlowGraph) (found : Findings) (ks : List ℕ)
      (computed changes : List Event),
      a.ring.width = 3 ∧ g.Assembled ∧ (a.run g).2 = .ok found ∧
      found.events = computed ++ changes ∧ ks.Nodup ∧ (∀ k, k ∈ ks ↔ k = 1 ∨ k = 2) ∧
      computed.length = 2 ∧ changes.length = 4 ∧
      (∀ event ∈ changes, ∃ node set, event = .generators node set) ∧
      (a.run g).1.edges[0]? = g.edges[0]? ∧ (a.run g).1.edges[3]? = g.edges[3]? := by
  let a : Analyzer := ⟨.ofBits 3 (by decide) (by decide), 1, "main"⟩
  let g := overwrittenLoop ⟨.ofBits 5 (by decide) (by decide), 1, "main"⟩
  have hg : g.Assembled := assembled_overwrittenLoop _
  have hcounts : (a.run g).2.toOption.map (fun found =>
      (found.entry, found.stats.edges, found.stats.accepted)) = some (0, 2, 4) := by
    decide +kernel
  obtain ⟨found, hfound, hcounts⟩ := Option.map_eq_some_iff.mp hcounts
  have hrun : (a.run g).2 = .ok found := by
    cases hres : (a.run g).2 with
    | error e => simp [hres, Except.toOption] at hfound
    | ok found' => simpa [hres, Except.toOption] using hfound
  obtain ⟨hzero, hedges, haccepted⟩ : found.entry = 0 ∧ found.stats.edges = 2 ∧
      found.stats.accepted = 4 := by simpa using hcounts
  obtain ⟨-, ks, computed, changes, hevents, hnodup, hmem, -, hchanges, hcomputed, hchanged, -,
    hkept⟩ := events_run hg a hrun
  have hreach (q : ℕ) : q ∈ [0, 1] ↔ g.Reaches found.entry q := by
    have hlist : g.reach 0 = [0, 1] := by decide +kernel
    rw [hzero, ← hlist]
    exact mem_reach hg.coherent.bounded (by decide +kernel)
  have hany (k : ℕ) : k ∈ ks ↔ (g.edges[k]?.any fun e =>
      decide (e.source ∈ [0, 1]) && decide (e.Stale a.ring)) = true := by
    rw [hmem, Option.any_eq_true]
    refine exists_congr fun e => and_congr_right fun _ => ?_
    rw [Bool.and_eq_true, decide_eq_true_iff, decide_eq_true_iff, hreach]
  have hks (k : ℕ) : k ∈ ks ↔ k = 1 ∨ k = 2 := by
    have hsize : g.edges.size = 4 := by decide +kernel
    have hfour : ∀ k < 4, ((g.edges[k]?.any fun e =>
        decide (e.source ∈ [0, 1]) && decide (e.Stale a.ring)) = true ↔ k = 1 ∨ k = 2) := by
      decide +kernel
    by_cases hk : k < 4
    · rw [hany, hfour k hk]
    · have hnone : g.edges[k]? = none := Array.getElem?_eq_none (by omega)
      rw [hany, hnone]
      simp only [Option.any_none, Bool.false_eq_true, false_iff]
      omega
  refine ⟨a, g, found, ks, computed, changes, rfl, hg, hrun, hevents, hnodup, hks, ?_, ?_,
    hchanges, hkept 0 ?_, hkept 3 ?_⟩
  · rw [← hcomputed, hedges]
  · rw [← hchanged, haccepted]
  · rw [hks]
    decide
  · rw [hks]
    decide

end Analyzer

end AffineRelations
