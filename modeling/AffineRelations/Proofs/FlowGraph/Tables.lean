import AffineRelations.Proofs.FlowGraph.Atomicity
import AffineRelations.Proofs.FlowGraph.Coherence

/-!
# A flow graph in tables

A graph can be kept in parts that say the same thing twice. Nodes and edges are
records to which the other parts refer. One table leads from names to nodes, and
a list has the nodes in the order of insertion. Another table leads from the
variables to their columns, beside the list of the variables. Edges are named
after a counter of 64 bits, beside the list of the edges. Every update has to
write all the parts that it concerns, also if it fails halfway.

`Keeps` says that such tables keep a flow graph. The tables without nodes keep
the graph without nodes, and every update of the tables keeps what the same
update makes of the graph, with the same answer. So what is known of flow graphs
that grow holds of the tables, and their parts agree.
-/
namespace AffineRelations

/-- The complaint of an update about the node that it asked for. -/
def GraphError.during (update : GraphUpdate) : GraphError → GraphError
  | .emptyNodeId _ => .emptyNodeId (some update)
  | e => e

/-- A write to a table puts an entry in front of older ones. -/
structure GraphTables where
  vars : List String
  /-- The columns of the variables, counted from one. -/
  columns : List (String × ℕ)
  /-- Every node that was made. A reference to a node is its place here. -/
  nodes : Array Node
  /-- The nodes by their names. -/
  byName : List (String × ℕ)
  /-- The nodes in the order of insertion. -/
  order : List ℕ
  /-- Every edge that was made. A reference to an edge is its place here. -/
  edges : Array Edge
  /-- The edges in the order of insertion. -/
  listed : List ℕ
  procedures : List (String × ℕ)
  /-- The number after which the next edge is named. -/
  nextEdge : UInt64

namespace GraphTables

/-- Gives a variable that is new the next column. -/
def addVar (t : GraphTables) (x : String) : GraphTables :=
  let vars := t.vars ++ [x]
  { t with vars := vars, columns := (x, vars.length) :: t.columns }

/-- Takes up variables one after another. -/
def addVars (t : GraphTables) : List String → Except GraphError GraphTables
  | [] => .ok t
  | x :: xs =>
    if x = "" then .error .emptyVariable
    else if (t.columns.lookup x).isSome then .error (.duplicateVariable x)
    else addVars (t.addVar x) xs

/-- The tables without nodes over the given variables. -/
def ofVars (vars : List String) : Except GraphError GraphTables :=
  addVars ⟨[], [], #[], [], [], #[], [], [], 0⟩ vars

/-- The column of a variable, and zero for any other name. -/
def varIndex (t : GraphTables) (x : String) : ℕ := (t.columns.lookup x).getD 0

/-- Adds a node with a name that is new. -/
def pushNode (t : GraphTables) (id : String) : GraphTables :=
  let i := t.nodes.size
  { t with
    nodes := t.nodes.push ⟨id, [], none⟩
    byName := (id, i) :: t.byName
    order := t.order ++ [i] }

def addNode (t : GraphTables) (id : String) : GraphTables × Except GraphError ℕ :=
  if id = "" then (t, .error (.emptyNodeId none))
  else match t.byName.lookup id with
    | some i => (t, .ok i)
    | none => (t.pushNode id, .ok t.nodes.size)

/-- Adds an edge between two nodes that are there. -/
def connect (t : GraphTables) (source target : ℕ) (stmt : Option Expr) : GraphTables :=
  let k := t.edges.size
  { t with
    edges := t.edges.push ⟨"e" ++ toString t.nextEdge.toNat, source, target, stmt, [], 0⟩
    nextEdge := t.nextEdge + 1
    nodes := t.nodes.modify source fun n => { n with out := n.out ++ [k] }
    listed := t.listed ++ [k] }

def addEdge (t : GraphTables) (source target : String) (stmt : Option Expr) :
    GraphTables × Except GraphError ℕ :=
  match t.addNode source with
  | (t, .error e) => (t, .error (e.during .edge))
  | (t, .ok i) => match t.addNode target with
    | (t, .error e) => (t, .error (e.during .edge))
    | (t, .ok j) => (t.connect i j stmt, .ok t.edges.size)

def addProcedure (t : GraphTables) (name entry : String) :
    GraphTables × Except GraphError Unit :=
  if (t.procedures.lookup name).isSome then (t, .error (.duplicateProcedure name))
  else match t.addNode entry with
    | (t, .error e) => (t, .error (e.during .procedure))
    | (t, .ok i) => ({ t with procedures := (name, i) :: t.procedures }, .ok ())

/-- The updates of a graph. -/
inductive Addition where
  | node (id : String)
  | edge (source target : String) (stmt : Option Expr)
  | procedure (name entry : String)

def Addition.action : Addition → FlowGraph.Action
  | .node id => .addNode id
  | .edge source target stmt => .addEdge source target stmt
  | .procedure name entry => .addProcedure name entry

def perform (t : GraphTables) : Addition → GraphTables
  | .node id => (t.addNode id).1
  | .edge source target stmt => (t.addEdge source target stmt).1
  | .procedure name entry => (t.addProcedure name entry).1

/-- The tables after a sequence of updates, some of which may fail. -/
def after (t : GraphTables) (calls : List Addition) : GraphTables := calls.foldl perform t

/-- The name that the counter gives to the edge at position `k`. -/
def edgeId (k : ℕ) : String := "e" ++ toString (k % 2 ^ 64)

/-- The tables keep the graph. -/
structure Keeps (t : GraphTables) (g : FlowGraph) : Prop where
  vars_eq : t.vars = g.vars
  columns_eq : ∀ x, t.columns.lookup x = slot? g.vars x
  nodes_eq : t.nodes = g.nodes
  byName_eq : ∀ id, t.byName.lookup id = g.find? id
  order_eq : t.order = List.range g.nodes.size
  edges_eq : t.edges = g.edges.mapIdx fun k e => { e with id := edgeId k }
  listed_eq : t.listed = List.range g.edges.size
  procedures_eq : ∀ name, t.procedures.lookup name = g.procedures.lookup name
  nextEdge_eq : t.nextEdge = UInt64.ofNat g.edges.size

end GraphTables

/-- What a table says after a write. -/
theorem lookup_write {α : Type} (table : List (String × α)) (x : String) (a : α) (y : String) :
    ((x, a) :: table).lookup y = if y = x then some a else table.lookup y := by
  rw [List.lookup_cons]
  by_cases hyx : y = x
  · rw [if_pos hyx, beq_iff_eq.mpr hyx]
  · rw [if_neg hyx, beq_eq_false_iff_ne.mpr hyx]

/-- A name that is new takes the next column. -/
theorem slot?_append_singleton {vars : List String} {x : String} (hx : x ∉ vars) (y : String) :
    slot? (vars ++ [x]) y = if y = x then some (vars.length + 1) else slot? vars y := by
  have hsplit : slot? (vars ++ [x]) y =
      (slot? vars y).or (if x = y then some (vars.length + 1) else none) := by
    simp only [slot?, List.idxOf?, List.findIdx?_append, List.findIdx?_cons]
    cases vars.findIdx? (· == y) <;> by_cases hxy : x = y <;> simp [hxy]
  rw [hsplit]
  by_cases hyx : y = x
  · subst hyx
    rw [slot?_eq_none.mpr hx, if_pos rfl, Option.none_or]
  · rw [if_neg hyx, if_neg (Ne.symm hyx), Option.or_none]

namespace FlowGraph
variable {g : FlowGraph}

theorem lt_size_of_name {i : ℕ} {id : String} (h : g.nodes[i]?.map (·.id) = some id) :
    i < g.nodes.size := by
  obtain ⟨n, hn, -⟩ := Option.map_eq_some_iff.mp h
  exact (Array.getElem?_eq_some_iff.mp hn).1

theorem find?_pushNode {id : String} (hnew : g.find? id = none) (name : String) :
    (g.pushNode id).find? name = if name = id then some g.nodes.size else g.find? name := by
  simp only [find?, pushNode, Array.findIdx?_push]
  by_cases hname : name = id
  · subst hname
    rw [find?] at hnew
    simp [hnew]
  · simp [hname, Ne.symm hname]

theorem find?_connect (g : FlowGraph) (i j : ℕ) (stmt : Option Expr) (id : String) :
    (g.connect i j stmt).find? id = g.find? id := by
  have hids (g : FlowGraph) : g.find? id = (g.nodes.map (·.id)).findIdx? (· == id) := by
    rw [find?, Array.findIdx?_map]
    rfl
  rw [hids, hids, map_id_connect]

end FlowGraph

namespace GraphTables
variable {t : GraphTables} {g : FlowGraph}

theorem Keeps.size_edges_eq (h : t.Keeps g) : t.edges.size = g.edges.size := by
  rw [h.edges_eq, Array.size_mapIdx]

theorem Keeps.pushNode (h : t.Keeps g) {id : String} (hnew : g.find? id = none) :
    (t.pushNode id).Keeps (g.pushNode id) where
  vars_eq := h.vars_eq
  columns_eq := h.columns_eq
  nodes_eq := by rw [GraphTables.pushNode, FlowGraph.pushNode, h.nodes_eq]
  byName_eq := by
    intro name
    rw [FlowGraph.find?_pushNode hnew, GraphTables.pushNode, lookup_write, h.nodes_eq,
      h.byName_eq]
  order_eq := by
    rw [GraphTables.pushNode, FlowGraph.pushNode, Array.size_push, List.range_succ, h.nodes_eq,
      h.order_eq]
  edges_eq := h.edges_eq
  listed_eq := h.listed_eq
  procedures_eq := h.procedures_eq
  nextEdge_eq := h.nextEdge_eq

theorem Keeps.addNode (h : t.Keeps g) (id : String) :
    (t.addNode id).1.Keeps (g.addNode id).1 ∧ (t.addNode id).2 = (g.addNode id).2 := by
  rw [GraphTables.addNode, FlowGraph.addNode]
  split_ifs with hid
  · exact ⟨h, rfl⟩
  · rw [h.byName_eq id]
    cases hfind : g.find? id with
    | some i => exact ⟨h, rfl⟩
    | none =>
        have hsize : t.nodes.size = g.nodes.size := by rw [h.nodes_eq]
        exact ⟨h.pushNode hfind, congrArg Except.ok hsize⟩

theorem procedures_addNode (t : GraphTables) (id : String) :
    (t.addNode id).1.procedures = t.procedures := by
  rw [GraphTables.addNode]
  split_ifs
  · rfl
  · cases t.byName.lookup id <;> rfl

/-- A node that another update needs is refused by both or there in both. -/
theorem Keeps.addNodeFor (h : t.Keeps g) (update : GraphUpdate) (id : String) :
    ∃ (t' : GraphTables) (g' : FlowGraph), t'.Keeps g' ∧ t'.procedures = t.procedures ∧
      ((∃ e, t.addNode id = (t', .error e) ∧
          g.addNodeFor update id = (g', .error (e.during update))) ∨
        ∃ i, t.addNode id = (t', .ok i) ∧ g.addNodeFor update id = (g', .ok i)) := by
  by_cases hid : id = ""
  · refine ⟨t, g, h, rfl, .inl ⟨.emptyNodeId none, ?_, ?_⟩⟩
    · rw [GraphTables.addNode, if_pos hid]
    · rw [FlowGraph.addNodeFor, if_pos hid, GraphError.during]
  · obtain ⟨hkeeps, hanswer⟩ := h.addNode id
    obtain ⟨i, hi⟩ := FlowGraph.addNode_of_ne_empty (g := g) hid
    have hok : (g.addNode id).2 = .ok i := by rw [hi]
    refine ⟨_, _, hkeeps, t.procedures_addNode id, .inr ⟨i, ?_, ?_⟩⟩
    · exact Prod.ext rfl (hanswer.trans hok)
    · rw [FlowGraph.addNodeFor, if_neg hid]
      exact Prod.ext rfl hok

theorem Keeps.connect (h : t.Keeps g) (source target : ℕ) (stmt : Option Expr) :
    (t.connect source target stmt).Keeps (g.connect source target stmt) where
  vars_eq := h.vars_eq
  columns_eq := h.columns_eq
  nodes_eq := by
    simp only [GraphTables.connect, FlowGraph.connect, h.nodes_eq, h.size_edges_eq]
  byName_eq := by
    intro id
    rw [g.find?_connect]
    exact h.byName_eq id
  order_eq := by
    rw [FlowGraph.connect, Array.size_modify]
    exact h.order_eq
  edges_eq := by
    simp only [GraphTables.connect, FlowGraph.connect, Array.mapIdx_push, h.edges_eq,
      h.nextEdge_eq, UInt64.toNat_ofNat', edgeId]
  listed_eq := by
    simp only [GraphTables.connect, FlowGraph.connect, Array.size_push, List.range_succ,
      h.listed_eq, h.size_edges_eq]
  procedures_eq := h.procedures_eq
  nextEdge_eq := by
    simp only [GraphTables.connect, FlowGraph.connect, Array.size_push, h.nextEdge_eq,
      UInt64.ofNat_add]
    rfl

theorem Keeps.addEdge (h : t.Keeps g) (source target : String) (stmt : Option Expr) :
    (t.addEdge source target stmt).1.Keeps (g.addEdge source target stmt).1 ∧
      (t.addEdge source target stmt).2 = (g.addEdge source target stmt).2 := by
  rw [GraphTables.addEdge, FlowGraph.addEdge]
  obtain ⟨t₁, g₁, h₁, -, ⟨e, ht, hg⟩ | ⟨i, ht, hg⟩⟩ := h.addNodeFor .edge source
  · rw [ht, hg]
    exact ⟨h₁, rfl⟩
  · rw [ht, hg]
    dsimp only
    obtain ⟨t₂, g₂, h₂, -, ⟨e, ht, hg⟩ | ⟨j, ht, hg⟩⟩ := h₁.addNodeFor .edge target
    · rw [ht, hg]
      exact ⟨h₂, rfl⟩
    · rw [ht, hg]
      exact ⟨h₂.connect i j stmt, congrArg Except.ok h₂.size_edges_eq⟩

theorem any_fst_eq (table : List (String × ℕ)) (name : String) :
    (table.any fun p => p.1 == name) = (table.lookup name).isSome := by
  induction table with
  | nil => rfl
  | cons p table ih =>
      rw [List.any_cons, lookup_write, ih]
      by_cases hp : name = p.1
      · simp [hp]
      · simp [hp, Ne.symm hp]

theorem Keeps.register (h : t.Keeps g) {name : String} (hnew : t.procedures.lookup name = none)
    (i : ℕ) : Keeps { t with procedures := (name, i) :: t.procedures }
      { g with procedures := g.procedures ++ [(name, i)] } where
  vars_eq := h.vars_eq
  columns_eq := h.columns_eq
  nodes_eq := h.nodes_eq
  byName_eq := h.byName_eq
  order_eq := h.order_eq
  edges_eq := h.edges_eq
  listed_eq := h.listed_eq
  procedures_eq := by
    intro other
    rw [lookup_write, List.lookup_append, lookup_write, List.lookup_nil, ← h.procedures_eq]
    by_cases hother : other = name
    · rw [if_pos hother, if_pos hother, hother, hnew, Option.none_or]
    · rw [if_neg hother, if_neg hother, Option.or_none]
  nextEdge_eq := h.nextEdge_eq

theorem Keeps.addProcedure (h : t.Keeps g) (name entry : String) :
    (t.addProcedure name entry).1.Keeps (g.addProcedure name entry).1 ∧
      (t.addProcedure name entry).2 = (g.addProcedure name entry).2 := by
  rw [GraphTables.addProcedure, FlowGraph.addProcedure, any_fst_eq, ← h.procedures_eq]
  split_ifs with hdup
  · exact ⟨h, rfl⟩
  · have hnew := Option.not_isSome_iff_eq_none.mp hdup
    obtain ⟨t₁, g₁, h₁, hprocedures, ⟨e, ht, hg⟩ | ⟨i, ht, hg⟩⟩ := h.addNodeFor .procedure entry
    · rw [ht, hg]
      exact ⟨h₁, rfl⟩
    · rw [ht, hg]
      exact ⟨h₁.register (hprocedures ▸ hnew) i, rfl⟩

theorem Keeps.perform (h : t.Keeps g) (call : Addition) :
    (t.perform call).Keeps (g.perform call.action) := by
  cases call with
  | node id => exact (h.addNode id).1
  | edge source target stmt => exact (h.addEdge source target stmt).1
  | procedure name entry => exact (h.addProcedure name entry).1

theorem Keeps.after (h : t.Keeps g) (calls : List Addition) :
    (t.after calls).Keeps (g.after (calls.map Addition.action)) := by
  induction calls generalizing t g with
  | nil => exact h
  | cons call calls ih => exact ih (h.perform call)

/-- Variables are refused with the same complaint, or the tables have a column
for each. -/
theorem addVars_cases (known : List String) (hknown : ∀ x, x ∈ known ↔ x ∈ t.vars)
    (hcolumns : ∀ x, t.columns.lookup x = slot? t.vars x) (xs : List String) :
    (∃ e, FlowGraph.checkVars known xs = some e ∧ t.addVars xs = .error e) ∨
      FlowGraph.checkVars known xs = none ∧ ∃ columns,
        t.addVars xs = .ok { t with vars := t.vars ++ xs, columns := columns } ∧
        ∀ x, columns.lookup x = slot? (t.vars ++ xs) x := by
  induction xs generalizing t known with
  | nil => exact .inr ⟨rfl, t.columns, by simp [addVars], by simpa using hcolumns⟩
  | cons x xs ih =>
      have hdup : known.contains x = true ↔ (t.columns.lookup x).isSome = true := by
        rw [List.contains_iff_mem, hknown, hcolumns, Option.isSome_iff_ne_none, ne_eq,
          slot?_eq_none, not_not]
      rw [FlowGraph.checkVars, addVars]
      by_cases hx : x = ""
      · exact .inl ⟨.emptyVariable, by rw [if_pos hx], by rw [if_pos hx]⟩
      rw [if_neg hx, if_neg hx]
      by_cases hmem : known.contains x = true
      · exact .inl ⟨.duplicateVariable x, by rw [if_pos hmem], by rw [if_pos (hdup.mp hmem)]⟩
      rw [if_neg hmem, if_neg (mt hdup.mpr hmem)]
      have hnew : x ∉ t.vars := by rwa [List.contains_iff_mem, hknown] at hmem
      have hstep := ih (t := t.addVar x) (x :: known) (by simp [addVar, hknown, or_comm]) ?_
      · simpa [addVar] using hstep
      · intro y
        rw [addVar, lookup_write, slot?_append_singleton hnew, hcolumns, List.length_append,
          List.length_singleton]

theorem ofVars_cases (vars : List String) :
    (∃ e, FlowGraph.ofVars vars = .error e ∧ ofVars vars = .error e) ∨
      ∃ (g : FlowGraph) (t : GraphTables),
        FlowGraph.ofVars vars = .ok g ∧ ofVars vars = .ok t ∧ t.Keeps g := by
  let t : GraphTables := ⟨[], [], #[], [], [], #[], [], [], 0⟩
  obtain ⟨e, hcheck, ht⟩ | ⟨hcheck, columns, ht, hcolumns⟩ :=
    addVars_cases (t := t) [] (by simp [t]) (fun x => rfl) vars
  · exact .inl ⟨e, by rw [FlowGraph.ofVars, hcheck], ht⟩
  · refine .inr ⟨⟨vars, #[], #[], []⟩, _, by rw [FlowGraph.ofVars, hcheck], ht, ?_⟩
    exact ⟨rfl, hcolumns, rfl, by simp [FlowGraph.find?, t], rfl, rfl, rfl, fun _ => rfl, rfl⟩

/-- The parts of the tables agree. -/
structure Agree (t : GraphTables) : Prop where
  order_nodup : t.order.Nodup
  mem_order : ∀ i, i ∈ t.order ↔ ∃ id, t.byName.lookup id = some i
  /-- Nodes are filed under their own names, which are not empty. -/
  byName : ∀ id i, t.byName.lookup id = some i ↔
    id ≠ "" ∧ i ∈ t.order ∧ t.nodes[i]?.map (·.id) = some id
  ids_nodup : (t.order.map fun i => t.nodes[i]?.map (·.id)).Nodup
  listed_nodup : t.listed.Nodup
  /-- The edges are named after their places, as 64 bits count them, and join
  nodes. -/
  edge : ∀ k l, t.listed[k]? = some l → ∃ e, t.edges[l]? = some e ∧
    e.id = "e" ++ toString (k % 2 ^ 64) ∧ e.source ∈ t.order ∧ e.target ∈ t.order
  nextEdge : t.nextEdge = UInt64.ofNat t.listed.length
  /-- A node has the edges that leave it, in the order of all edges. -/
  out : ∀ i n, i ∈ t.order → t.nodes[i]? = some n →
    n.out = t.listed.filter fun l => t.edges[l]?.map (·.source) == some i
  entry : ∀ name i, t.procedures.lookup name = some i → i ∈ t.order
  varIndex : ∀ i x, t.vars[i]? = some x → t.varIndex x = i + 1
  varIndex_of_not_mem : ∀ x ∉ t.vars, t.varIndex x = 0

theorem Keeps.agree (h : t.Keeps g) (hg : g.Coherent) (hvars : g.vars.Nodup) : t.Agree where
  order_nodup := by
    rw [h.order_eq]
    exact List.nodup_range
  mem_order := by
    intro i
    simp only [h.order_eq, h.byName_eq, hg.find?_eq_some_iff, List.mem_range]
    constructor
    · intro hi
      exact ⟨g.nodes[i].id, by rw [Array.getElem?_eq_getElem hi, Option.map_some]⟩
    · rintro ⟨id, hid⟩
      exact FlowGraph.lt_size_of_name hid
  byName := by
    intro id i
    rw [h.byName_eq, hg.find?_eq_some_iff, h.nodes_eq, h.order_eq, List.mem_range]
    refine ⟨fun hid => ⟨?_, ?_, hid⟩, fun hid => hid.2.2⟩
    · rintro rfl
      rw [← Array.getElem?_map] at hid
      exact hg.ids_ne_empty (Array.mem_of_getElem? hid)
    · exact FlowGraph.lt_size_of_name hid
  ids_nodup := by
    rw [h.order_eq, h.nodes_eq]
    refine List.Nodup.map_on (fun i hi j _ hij => ?_) List.nodup_range
    have hid := congrArg (Option.map (·.id)) (Array.getElem?_eq_getElem (List.mem_range.mp hi))
    have hfind := hg.find?_eq_some_iff.mpr hid
    rw [hg.find?_eq_some_iff.mpr (hij ▸ hid)] at hfind
    exact (Option.some.inj hfind).symm
  listed_nodup := by
    rw [h.listed_eq]
    exact List.nodup_range
  edge := by
    intro k l hl
    rw [h.listed_eq] at hl
    obtain ⟨hk, hkl⟩ := List.getElem?_eq_some_iff.mp hl
    rw [List.length_range] at hk
    rw [List.getElem_range] at hkl
    subst hkl
    have he := Array.getElem?_eq_getElem hk
    obtain ⟨hsource, htarget⟩ := hg.edge_ends k _ he
    refine ⟨{ g.edges[k] with id := edgeId k }, ?_, rfl, ?_, ?_⟩
    · rw [h.edges_eq, Array.getElem?_mapIdx, he, Option.map_some]
    · rw [h.order_eq]
      exact List.mem_range.mpr hsource
    · rw [h.order_eq]
      exact List.mem_range.mpr htarget
  nextEdge := by rw [h.nextEdge_eq, h.listed_eq, List.length_range]
  out := by
    intro i n _ hn
    rw [hg.out_eq i n (h.nodes_eq ▸ hn), FlowGraph.leaving, h.listed_eq]
    refine List.filter_congr fun l _ => ?_
    rw [h.edges_eq, Array.getElem?_mapIdx, Option.map_map]
    rfl
  entry := by
    intro name i hi
    rw [h.procedures_eq] at hi
    obtain ⟨_, _, hsplit, -⟩ := List.lookup_eq_some_iff.mp hi
    rw [h.order_eq]
    exact List.mem_range.mpr (hg.entry_lt (name, i) (by simp [hsplit]))
  varIndex := by
    intro i x hx
    rw [GraphTables.varIndex, h.columns_eq, slot?_of_getElem? hvars (h.vars_eq ▸ hx),
      Option.getD_some]
  varIndex_of_not_mem := by
    intro x hx
    rw [GraphTables.varIndex, h.columns_eq, slot?_eq_none.mpr (h.vars_eq ▸ hx), Option.getD_none]

/-- Variables are accepted if they have distinct names that are not empty. From
there on, whatever is added and whether or not it fails, the tables keep the
flow graph that the same additions make, and their parts agree. -/
theorem agree_after (vars : List String) :
    ((∃ start, ofVars vars = .ok start) ↔ vars.Nodup ∧ "" ∉ vars) ∧
    ∀ start, ofVars vars = .ok start → ∀ calls : List Addition,
      (start.after calls).vars = vars ∧ (start.after calls).Agree ∧
      ∃ g, FlowGraph.ofVars vars = .ok g ∧
        (start.after calls).Keeps (g.after (calls.map Addition.action)) := by
  obtain ⟨haccepted, hafter⟩ := FlowGraph.coherent_after vars
  obtain ⟨e, hg, ht⟩ | ⟨g, t, hg, ht, hkeeps⟩ := ofVars_cases vars
  · rw [ht, ← haccepted, hg]
    simp
  · refine ⟨⟨fun _ => haccepted.mp ⟨g, hg⟩, fun _ => ⟨t, ht⟩⟩, ?_⟩
    intro start hstart calls
    obtain rfl : t = start := Except.ok.inj (ht.symm.trans hstart)
    obtain ⟨hvars, hcoherent, -⟩ := hafter g hg (calls.map Addition.action)
    have hcalls := hkeeps.after calls
    have hnodup := (haccepted.mp ⟨g, hg⟩).1
    exact ⟨hcalls.vars_eq.trans hvars, hcalls.agree hcoherent (hvars ▸ hnodup), g, hg, hcalls⟩

/-- Three additions fail here. The second one leaves the node `a` behind. -/
theorem agree_after_failures : ∃ start t : GraphTables, ofVars ["x", "y"] = .ok start ∧
    start.after [.node "", .edge "a" "" none, .edge "b" "a" none, .procedure "main" "b",
      .procedure "main" "c", .edge "a" "a" none, .edge "b" "b" none] = t ∧
    t.Agree ∧ t.order = [0, 1] ∧ t.nodes.map (·.id) = #["a", "b"] ∧
    t.byName.lookup "b" = some 1 ∧ t.byName.lookup "c" = none ∧
    t.listed.map (fun l => t.edges[l]?.map (·.id)) = [some "e0", some "e1", some "e2"] ∧
    t.nodes.map (·.out) = #[[1], [0, 2]] ∧ t.nextEdge = 3 ∧ t.varIndex "y" = 2 := by
  let start : GraphTables := ⟨["x", "y"], [("y", 2), ("x", 1)], #[], [], [], #[], [], [], 0⟩
  have hstart : ofVars ["x", "y"] = .ok start := rfl
  obtain ⟨hvars, hagree, -⟩ := (agree_after ["x", "y"]).2 start hstart
    [.node "", .edge "a" "" none, .edge "b" "a" none, .procedure "main" "b",
      .procedure "main" "c", .edge "a" "a" none, .edge "b" "b" none]
  refine ⟨start, _, hstart, rfl, hagree, by decide +kernel, by decide +kernel, ?_,
    by decide +kernel, by decide +kernel, by decide +kernel, by decide +kernel, ?_⟩
  · exact (hagree.byName "b" 1).mpr (by decide +kernel)
  · exact hagree.varIndex 1 "y" (by rw [hvars]; rfl)

end GraphTables

end AffineRelations
