import AffineRelations.Proofs.FlowGraph.Coherence

/-!
# Flow graphs by the names of their nodes

Inside a graph nodes are known by position. From outside they are known by
name, and so are the ends of edges and the entries of procedures. `Reads` says
what a graph is in these terms: its nodes are the names that were mentioned,
each at its first mention. The three updates of a graph append to what it
reads, and as nodes keep their positions nothing else changes.
-/
namespace AffineRelations.FlowGraph

/-- The names of the nodes in their order. -/
def ids (g : FlowGraph) : List String := g.nodes.toList.map (·.id)

/-- The edges in their order, with the names of their ends. -/
def namedEdges (g : FlowGraph) : List (String × String × Option Expr) :=
  g.edges.toList.map fun e => (g.nodeId e.source, g.nodeId e.target, e.stmt)

/-- The procedures in their order, with the names of their entries. -/
def namedProcedures (g : FlowGraph) : List (String × String) :=
  g.procedures.map fun p => (p.1, g.nodeId p.2)

/-- A coherent graph with these edges and procedures, whose nodes are the
mentioned names. -/
structure Reads (g : FlowGraph) (mentioned : List String)
    (edges : List (String × String × Option Expr)) (procedures : List (String × String)) :
    Prop where
  coherent : g.Coherent
  ids_eq : g.ids = mentioned.eraseDups
  edges_eq : g.namedEdges = edges
  procedures_eq : g.namedProcedures = procedures

variable {g g' : FlowGraph} {mentioned : List String}
  {edges : List (String × String × Option Expr)} {procedures : List (String × String)}

theorem reads_ofVars {vars : List String} (h : ofVars vars = .ok g) : g.Reads [] [] [] := by
  refine ⟨coherent_ofVars h, ?_, ?_, ?_⟩ <;> obtain ⟨-, rfl⟩ := ofVars_eq_ok_iff.mp h <;> rfl

theorem nodeId_eq (g : FlowGraph) (i : ℕ) : g.nodeId i = g.ids[i]?.getD "" := by
  simp [nodeId, ids]

theorem nodeId_of_getElem? {i : ℕ} {id : String} (h : g.ids[i]? = some id) : g.nodeId i = id := by
  rw [nodeId_eq, h, Option.getD_some]

theorem length_ids (g : FlowGraph) : g.ids.length = g.nodes.size := by simp [ids]

theorem lt_size_of_getElem? {i : ℕ} {id : String} (h : g.ids[i]? = some id) :
    i < g.nodes.size :=
  g.length_ids ▸ (List.getElem?_eq_some_iff.mp h).1

/-- Nodes that were there before keep their names. -/
theorem nodeId_of_extends (h : g.ids <+: g'.ids) {i : ℕ} (hi : i < g.nodes.size) :
    g'.nodeId i = g.nodeId i := by
  obtain ⟨more, hmore⟩ := h
  rw [nodeId_eq, nodeId_eq, ← hmore, List.getElem?_append_left (g.length_ids ▸ hi)]

theorem namedEdges_of_extends (hg : g.Coherent) (h : g.ids <+: g'.ids)
    (hedges : g'.edges = g.edges) : g'.namedEdges = g.namedEdges := by
  rw [namedEdges, namedEdges, hedges]
  refine List.map_congr_left fun e he => ?_
  obtain ⟨k, hk⟩ := List.getElem?_of_mem he
  obtain ⟨hsource, htarget⟩ := hg.edge_ends k e (by rwa [← Array.getElem?_toList])
  rw [nodeId_of_extends h hsource, nodeId_of_extends h htarget]

theorem namedProcedures_of_extends (hg : g.Coherent) (h : g.ids <+: g'.ids)
    (hprocs : g'.procedures = g.procedures) : g'.namedProcedures = g.namedProcedures := by
  rw [namedProcedures, namedProcedures, hprocs]
  refine List.map_congr_left fun p hp => ?_
  rw [nodeId_of_extends h (hg.entry_lt p hp)]

theorem find?_eq_none_iff_ids {id : String} : g.find? id = none ↔ id ∉ g.ids := by
  rw [find?_eq_none_iff, ids, ← Array.toList_map, Array.mem_toList_iff]

theorem Coherent.getElem?_ids {id : String} {i : ℕ} (hg : g.Coherent) (h : g.find? id = some i) :
    g.ids[i]? = some id := by
  have hname := hg.find?_eq_some_iff.mp h
  rwa [ids, List.getElem?_map, Array.getElem?_toList]

/-- A further mention counts if it is the first one. -/
theorem eraseDups_concat (mentioned : List String) (id : String) :
    (mentioned ++ [id]).eraseDups =
      if id ∈ mentioned then mentioned.eraseDups else mentioned.eraseDups ++ [id] := by
  rw [List.eraseDups_append]
  split_ifs with h
  · simp [List.removeAll, h]
  · simp [List.removeAll, h, List.eraseDups_cons]

/-- A name that is mentioned has a node afterwards. -/
theorem Reads.addNode (h : g.Reads mentioned edges procedures) {id : String} (hid : id ≠ "") :
    ∃ g' i, g.addNode id = (g', .ok i) ∧ g'.vars = g.vars ∧ g.ids <+: g'.ids ∧
      g'.ids[i]? = some id ∧ g'.Reads (mentioned ++ [id]) edges procedures := by
  have hmem : id ∈ g.ids ↔ id ∈ mentioned := by rw [h.ids_eq, List.mem_eraseDups]
  unfold FlowGraph.addNode
  rw [if_neg hid]
  cases hfind : g.find? id with
  | some i =>
      have hat := h.coherent.getElem?_ids hfind
      have hknown : id ∈ mentioned := hmem.mp (List.mem_of_getElem? hat)
      refine ⟨g, i, rfl, rfl, List.prefix_rfl, hat, h.coherent, ?_, h.edges_eq, h.procedures_eq⟩
      rw [eraseDups_concat, if_pos hknown, h.ids_eq]
  | none =>
      have hids : (g.pushNode id).ids = g.ids ++ [id] := by simp [ids, pushNode]
      have hprefix : g.ids <+: (g.pushNode id).ids := hids ▸ List.prefix_append _ _
      have hnew : id ∉ mentioned := mt hmem.mpr (find?_eq_none_iff_ids.mp hfind)
      refine ⟨g.pushNode id, g.nodes.size, rfl, rfl, hprefix, ?_,
        h.coherent.pushNode hid hfind, ?_, ?_, ?_⟩
      · rw [hids, ← g.length_ids, List.getElem?_concat_length]
      · rw [hids, eraseDups_concat, if_neg hnew, h.ids_eq]
      · rw [namedEdges_of_extends h.coherent hprefix rfl, h.edges_eq]
      · rw [namedProcedures_of_extends h.coherent hprefix rfl, h.procedures_eq]

theorem ids_connect (g : FlowGraph) (i j : ℕ) (stmt : Option Expr) :
    (g.connect i j stmt).ids = g.ids := by
  rw [ids, ids, ← Array.toList_map, ← Array.toList_map, map_id_connect]

theorem Reads.connect (h : g.Reads mentioned edges procedures) {i j : ℕ} {source target : String}
    (hi : g.ids[i]? = some source) (hj : g.ids[j]? = some target) (stmt : Option Expr) :
    (g.connect i j stmt).Reads mentioned (edges ++ [(source, target, stmt)]) procedures where
  coherent := h.coherent.connect (lt_size_of_getElem? hi) (lt_size_of_getElem? hj) stmt
  ids_eq := (g.ids_connect i j stmt).trans h.ids_eq
  edges_eq := by
    have hname (l : ℕ) : (g.connect i j stmt).nodeId l = g.nodeId l := by
      rw [nodeId_eq, ids_connect, ← nodeId_eq]
    have hpush : (g.connect i j stmt).edges.toList =
        g.edges.toList ++ [⟨"e" ++ toString g.edges.size, i, j, stmt, [], 0⟩] :=
      Array.toList_push
    simp only [namedEdges, hname, hpush, List.map_append, List.map_singleton,
      nodeId_of_getElem? hi, nodeId_of_getElem? hj]
    rw [← h.edges_eq, namedEdges]
  procedures_eq := by
    have hprefix : g.ids <+: (g.connect i j stmt).ids := by rw [ids_connect]
    rw [namedProcedures_of_extends h.coherent hprefix rfl, h.procedures_eq]

theorem Reads.addEdge (h : g.Reads mentioned edges procedures) {source target : String}
    (hsource : source ≠ "") (htarget : target ≠ "") (stmt : Option Expr) :
    ∃ g' k, g.addEdge source target stmt = (g', .ok k) ∧ g'.vars = g.vars ∧
      g'.Reads (mentioned ++ [source, target]) (edges ++ [(source, target, stmt)]) procedures := by
  obtain ⟨g₁, i, hadd₁, hvars₁, -, hi, h₁⟩ := h.addNode hsource
  obtain ⟨g₂, j, hadd₂, hvars₂, hprefix, hj, h₂⟩ := h₁.addNode htarget
  have hi₂ : g₂.ids[i]? = some source := by
    obtain ⟨more, hmore⟩ := hprefix
    rw [← hmore, List.getElem?_append_left (List.getElem?_eq_some_iff.mp hi).1, hi]
  refine ⟨g₂.connect i j stmt, g₂.edges.size, ?_, hvars₂.trans hvars₁, ?_⟩
  · simp only [FlowGraph.addEdge, addNodeFor, if_neg hsource, hadd₁, if_neg htarget, hadd₂]
  · have hconnect := h₂.connect hi₂ hj stmt
    rwa [List.append_assoc] at hconnect

theorem Reads.names_eq (h : g.Reads mentioned edges procedures) :
    g.procedures.map Prod.fst = procedures.map Prod.fst := by
  rw [← h.procedures_eq, namedProcedures, List.map_map]
  rfl

theorem Reads.addProcedure (h : g.Reads mentioned edges procedures) {name entry : String}
    (hname : name ∉ procedures.map Prod.fst) (hentry : entry ≠ "") :
    ∃ g', g.addProcedure name entry = (g', .ok ()) ∧ g'.vars = g.vars ∧
      g'.Reads (mentioned ++ [entry]) edges (procedures ++ [(name, entry)]) := by
  obtain ⟨g₁, i, hadd, hvars, -, hi, h₁⟩ := h.addNode hentry
  have hfresh : ¬(g.procedures.any fun p => p.1 == name) = true := by
    rw [List.any_eq_true]
    rintro ⟨p, hp, heq⟩
    rw [← h.names_eq] at hname
    exact hname (List.mem_map.mpr ⟨p, hp, eq_of_beq heq⟩)
  have hnew : ∀ p ∈ g₁.procedures, p.1 ≠ name := by
    rintro p hp rfl
    rw [← h₁.names_eq] at hname
    exact hname (List.mem_map.mpr ⟨p, hp, rfl⟩)
  refine ⟨{ g₁ with procedures := g₁.procedures ++ [(name, i)] }, ?_, hvars, ?_⟩
  · simp only [FlowGraph.addProcedure, if_neg hfresh, addNodeFor, if_neg hentry, hadd]
  · refine ⟨h₁.coherent.register hnew (lt_size_of_getElem? hi),
      h₁.ids_eq, h₁.edges_eq, ?_⟩
    have hpair : (name, g₁.nodeId i) = (name, entry) := by rw [nodeId_of_getElem? hi]
    rw [← h₁.procedures_eq, ← hpair]
    exact List.map_append

/-- The entry of a procedure is the one that was given to its name. -/
theorem Reads.entry_iff (h : g.Reads mentioned edges procedures) {name entry : String} :
    (name, entry) ∈ procedures ↔ ∃ i, g.entry name = .ok i ∧ g.nodeId i = entry := by
  rw [← h.procedures_eq, namedProcedures, List.mem_map]
  constructor
  · rintro ⟨p, hp, hpair⟩
    obtain ⟨rfl, rfl⟩ := Prod.mk.inj hpair
    obtain ⟨q, hq⟩ := Option.isSome_iff_exists.mp
      (List.find?_isSome.mpr ⟨p, hp, beq_self_eq_true p.1⟩ :
        (g.procedures.find? fun q => q.1 == p.1).isSome)
    have hname : q.1 = p.1 := by simpa using List.find?_some hq
    -- names are distinct, so the procedure that is found is this one
    obtain rfl : q = p := List.inj_on_of_nodup_map h.coherent.names_nodup
      (List.mem_of_find?_eq_some hq) hp hname
    exact ⟨q.2, by rw [FlowGraph.entry, hq], rfl⟩
  · rintro ⟨i, hentry, rfl⟩
    cases hq : g.procedures.find? fun q => q.1 == name with
    | none => simp [FlowGraph.entry, hq] at hentry
    | some q =>
        obtain rfl : q.2 = i := by simpa [FlowGraph.entry, hq] using hentry
        obtain rfl : q.1 = name := by simpa using List.find?_some hq
        exact ⟨q, List.mem_of_find?_eq_some hq, rfl⟩

end AffineRelations.FlowGraph
