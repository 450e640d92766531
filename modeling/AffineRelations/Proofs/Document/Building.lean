import AffineRelations.Document.Program
import AffineRelations.Proofs.FlowGraph.Atomicity
import AffineRelations.Proofs.FlowGraph.Naming

/-!
# The graph of a document

A document is checked item by item while its graph is built: that there are
procedures, the variables, the nodes, the entries in the order of the
procedures' names, and of each edge first its ends and then its statement. No
check depends on the graph so far. So the first item that offends decides the
error, and a document without such an item has a graph, which is the document
read by names.
-/
namespace AffineRelations

/-- What is checked while the graph of a document is built. -/
inductive DocumentItem where
  | procedures
  | vars
  | node (id : String)
  | entry (name id : String)
  | ends (index : ℕ) (edge : EdgeDocument)
  | statement (index : ℕ) (edge : EdgeDocument)

namespace DocumentItem

/-- The item is not as it has to be. -/
def Offends (d : ProgramDocument) : DocumentItem → Prop
  | procedures => d.procedures = []
  | vars => ¬(d.vars.Nodup ∧ "" ∉ d.vars)
  | node id => id = ""
  | entry _ id => id = ""
  | ends _ e => e.source = "" ∨ e.target = ""
  | statement _ e => e.stmt ≠ "" ∧ ∀ s, Expr.parse e.stmt ≠ .ok s

/-- The error that an item raises. -/
def fault? (d : ProgramDocument) : DocumentItem → Option DocumentError
  | procedures => if d.procedures.isEmpty then some .noProcedures else none
  | vars => (FlowGraph.checkVars [] d.vars).map .graph
  | node id => if id = "" then some (.graph (.emptyNodeId none)) else none
  | entry name id =>
    if id = "" then some (.procedure name (.emptyNodeId (some .procedure))) else none
  | ends i e => if e.source = "" ∨ e.target = "" then some (.edgeEnds i) else none
  | statement i e => match ProgramDocument.statement i e with
    | .ok _ => none
    | .error err => some err

/-- Which kind of error an item raises. For a statement it holds the complaint
about its text, and for every other item it says that the document is invalid. -/
def Raises : DocumentItem → DocumentError → Prop
  | statement i e, err =>
    ∃ cause, Expr.parse e.stmt = .error cause ∧ err = .statement i e.source e.target cause
  | _, err => (∀ i source target cause, err ≠ .statement i source target cause) ∧
    ∃ text, err.message = invalidDocument text

variable {d : ProgramDocument} {item : DocumentItem}

theorem fault?_eq_none_iff : item.fault? d = none ↔ ¬item.Offends d := by
  cases item with
  | procedures => simp [fault?, Offends]
  | vars => simp [fault?, Offends, FlowGraph.checkVars_eq_none_iff]
  | node id => simp [fault?, Offends]
  | entry name id => simp [fault?, Offends]
  | ends i e => simp [fault?, Offends]
  | statement i e =>
      by_cases hempty : e.stmt = ""
      · simp [fault?, Offends, ProgramDocument.statement, hempty]
      · cases hparse : Expr.parse e.stmt <;>
          simp [fault?, Offends, ProgramDocument.statement, hempty, hparse]

theorem raises_of_fault? {err : DocumentError} (h : item.fault? d = some err) :
    item.Raises err := by
  cases item with
  | vars =>
      obtain ⟨e, -, rfl⟩ := Option.map_eq_some_iff.mp h
      exact ⟨by simp, _, rfl⟩
  | statement i e =>
      by_cases hempty : e.stmt = ""
      · simp [fault?, ProgramDocument.statement, hempty] at h
      · cases hparse : Expr.parse e.stmt with
        | ok s => simp [fault?, ProgramDocument.statement, hempty, hparse] at h
        | error cause =>
            have herr : DocumentError.statement i e.source e.target cause = err := by
              simpa [fault?, ProgramDocument.statement, hempty, hparse] using h
            exact ⟨cause, hparse, herr.symm⟩
  | procedures | node | entry | ends =>
      simp only [fault?] at h
      split_ifs at h
      obtain rfl := Option.some.inj h
      exact ⟨by simp, _, rfl⟩

end DocumentItem

/-- The edge that an entry of a document stands for. -/
def EdgeDocument.named (e : EdgeDocument) : String × String × Option Expr :=
  (e.source, e.target, if e.stmt = "" then none else (Expr.parse e.stmt).toOption)

namespace ProgramDocument

def edgeItems (i : ℕ) (es : List EdgeDocument) : List DocumentItem :=
  (es.zipIdx i).flatMap fun p => [.ends p.2 p.1, .statement p.2 p.1]

/-- All items in the order in which they are checked. -/
def items (d : ProgramDocument) : List DocumentItem :=
  .procedures :: .vars :: (d.nodes.map .node ++
    (d.sortedProcedures.map (fun p => .entry p.1 p.2) ++ edgeItems 0 d.edges))

/-- The result is the error, if there is one, and else a graph with the
property. -/
def Outcome (fault : Option DocumentError) (P : FlowGraph → Prop)
    (result : Except DocumentError FlowGraph) : Prop :=
  match fault with
  | some err => result = .error err
  | none => ∃ g, result = .ok g ∧ P g

namespace Outcome
variable {fault fault' : Option DocumentError} {P Q : FlowGraph → Prop} {g : FlowGraph}
  {result : Except DocumentError FlowGraph} {err : DocumentError}

theorem exists_ok_iff (h : Outcome fault P result) : (∃ g, result = .ok g) ↔ fault = none := by
  cases fault with
  | some err => simp [show result = .error err from h]
  | none =>
      obtain ⟨g, hg, -⟩ := h
      simp [hg]

theorem of_ok (h : Outcome fault P result) (hg : result = .ok g) : P g := by
  obtain rfl := h.exists_ok_iff.mp ⟨g, hg⟩
  obtain ⟨g', hg', hP⟩ := h
  obtain rfl : g = g' := Except.ok.inj (hg.symm.trans hg')
  exact hP

theorem of_error (h : Outcome fault P result) (herr : result = .error err) : fault = some err := by
  cases fault with
  | some e =>
      obtain rfl : err = e := Except.error.inj (herr.symm.trans h)
      rfl
  | none =>
      obtain ⟨g, hg, -⟩ := h
      cases herr.symm.trans hg

/-- A second stage starts from what the first one leaves. -/
theorem bind {next : FlowGraph → Except DocumentError FlowGraph} (h : Outcome fault P result)
    (hnext : ∀ g, P g → Outcome fault' Q (next g)) :
    Outcome (fault.or fault') Q (result >>= next) := by
  cases fault with
  | some err =>
      obtain rfl : result = .error err := h
      rfl
  | none =>
      obtain ⟨g, rfl, hP⟩ := h
      exact hnext g hP

end Outcome

variable {d : ProgramDocument} {g : FlowGraph} {mentioned : List String}
  {edges : List (String × String × Option Expr)} {procedures : List (String × String)}

theorem outcome_addNodes (h : g.Reads mentioned edges procedures) (ids : List String) :
    Outcome ((ids.map DocumentItem.node).findSome? (DocumentItem.fault? d))
      (fun g' => g'.vars = g.vars ∧ g'.Reads (mentioned ++ ids) edges procedures)
      (addNodes g ids) := by
  induction ids generalizing g mentioned with
  | nil => exact ⟨g, rfl, rfl, by rwa [List.append_nil]⟩
  | cons id ids ih =>
      rw [List.map_cons, List.findSome?_cons]
      by_cases hid : id = ""
      · simp [DocumentItem.fault?, hid, Outcome, addNodes, FlowGraph.addNode]
      · obtain ⟨g', i, hadd, hvars, -, -, hreads⟩ := h.addNode hid
        have hrest := ih hreads
        simp only [DocumentItem.fault?, if_neg hid, addNodes, hadd]
        simpa [hvars] using hrest

theorem outcome_addProcedures (h : g.Reads mentioned edges procedures)
    (ps : List (String × String)) (hnames : ((procedures ++ ps).map Prod.fst).Nodup) :
    Outcome ((ps.map fun p => DocumentItem.entry p.1 p.2).findSome? (DocumentItem.fault? d))
      (fun g' => g'.vars = g.vars ∧
        g'.Reads (mentioned ++ ps.map Prod.snd) edges (procedures ++ ps))
      (addProcedures g ps) := by
  induction ps generalizing g mentioned procedures with
  | nil => exact ⟨g, rfl, rfl, by simpa using h⟩
  | cons p ps ih =>
      obtain ⟨name, entry⟩ := p
      have hnew : name ∉ procedures.map Prod.fst := by
        intro hmem
        rw [List.map_append, List.nodup_append] at hnames
        exact hnames.2.2 name hmem name (by simp) rfl
      rw [List.map_cons, List.findSome?_cons]
      by_cases hentry : entry = ""
      · have hfail : g.addProcedure name entry = (g, .error (.emptyNodeId (some .procedure))) :=
          FlowGraph.addProcedure_eq_error_iff.mpr
            ⟨rfl, .inr ⟨h.names_eq ▸ hnew, hentry, rfl⟩⟩
        simp only [addProcedures, hfail, DocumentItem.fault?, if_pos hentry]
        rfl
      · obtain ⟨g', hadd, hvars, hreads⟩ := h.addProcedure hnew hentry
        have hrest := ih hreads (by simpa using hnames)
        simp only [DocumentItem.fault?, if_neg hentry, addProcedures, hadd]
        simpa [hvars] using hrest

theorem named_of_statement {i : ℕ} {e : EdgeDocument} {stmt : Option Expr}
    (h : statement i e = .ok stmt) : e.named = (e.source, e.target, stmt) := by
  by_cases hempty : e.stmt = ""
  · obtain rfl : none = stmt := by simpa [statement, hempty] using h
    simp [EdgeDocument.named, hempty]
  · cases hparse : Expr.parse e.stmt with
    | error cause => simp [statement, hempty, hparse] at h
    | ok s =>
        obtain rfl : some s = stmt := by simpa [statement, hempty, hparse] using h
        simp [EdgeDocument.named, hempty, hparse, Except.toOption]

theorem outcome_addEdges (h : g.Reads mentioned edges procedures) (i : ℕ)
    (es : List EdgeDocument) :
    Outcome ((edgeItems i es).findSome? (DocumentItem.fault? d))
      (fun g' => g'.vars = g.vars ∧ g'.Reads
        (mentioned ++ es.flatMap fun e => [e.source, e.target]) (edges ++ es.map (·.named))
        procedures)
      (addEdges g i es) := by
  induction es generalizing g mentioned edges i with
  | nil => exact ⟨g, rfl, rfl, by simpa using h⟩
  | cons e es ih =>
      have hitems : edgeItems i (e :: es) =
          .ends i e :: .statement i e :: edgeItems (i + 1) es := rfl
      rw [hitems, List.findSome?_cons, List.findSome?_cons]
      by_cases hends : e.source = "" ∨ e.target = ""
      · simp [DocumentItem.fault?, hends, Outcome, addEdges]
      · simp only [DocumentItem.fault?, if_neg hends, addEdges]
        cases hstmt : statement i e with
        | error err => rfl
        | ok stmt =>
            obtain ⟨hsource, htarget⟩ := not_or.mp hends
            obtain ⟨g', k, hadd, hvars, hreads⟩ := h.addEdge hsource htarget stmt
            have hnamed := named_of_statement hstmt
            have hrest := ih hreads (i + 1)
            simpa [hadd, hvars, hnamed] using hrest

theorem sortedProcedures_perm (d : ProgramDocument) : d.sortedProcedures.Perm d.procedures :=
  List.mergeSort_perm _ _

theorem sortedProcedures_ascending (hnames : (d.procedures.map Prod.fst).Nodup) :
    d.sortedProcedures.Pairwise fun p q => p.1 < q.1 := by
  have hsorted : d.sortedProcedures.Pairwise fun p q => (!decide (q.1 < p.1)) = true := by
    refine List.pairwise_mergeSort (fun p q s hpq hqs => ?_) (fun p q => ?_) _
    · simp only [Bool.not_eq_true', decide_eq_false_iff_not, not_lt] at hpq hqs ⊢
      exact hpq.trans hqs
    · simp only [Bool.or_eq_true, Bool.not_eq_true', decide_eq_false_iff_not, not_lt]
      exact le_total p.1 q.1
  have hdistinct : d.sortedProcedures.Pairwise fun p q => p.1 ≠ q.1 :=
    List.pairwise_map.mp (((sortedProcedures_perm d).map Prod.fst).nodup_iff.mpr hnames)
  refine (hsorted.and hdistinct).imp fun {p q} h => ?_
  simp only [Bool.not_eq_true', decide_eq_false_iff_not, not_lt] at h
  exact lt_of_le_of_ne h.1 h.2

/-- Procedures with distinct names have one ascending order. -/
theorem eq_of_ascending {ps qs : List (String × String)} (hperm : ps.Perm qs)
    (hps : ps.Pairwise fun p q => p.1 < q.1) (hqs : qs.Pairwise fun p q => p.1 < q.1) :
    ps = qs :=
  hperm.eq_of_pairwise (fun _ _ _ _ hlt hgt => absurd hgt (lt_asymm hlt)) hps hqs

/-- All names of nodes in the order in which they are mentioned. -/
def mentions (d : ProgramDocument) (ps : List (String × String)) : List String :=
  d.nodes ++ ps.map Prod.snd ++ d.edges.flatMap fun e => [e.source, e.target]

/-- The stages in which a graph is built. -/
theorem toGraph_of_start (hempty : ¬d.procedures.isEmpty = true)
    (hstart : FlowGraph.ofVars d.vars = .ok g) :
    d.toGraph = addNodes g d.nodes >>= fun g =>
      addProcedures g d.sortedProcedures >>= fun g => addEdges g 0 d.edges := by
  rw [toGraph, if_neg hempty, hstart]
  dsimp only
  cases addNodes g d.nodes with
  | error e => rfl
  | ok g =>
      dsimp only [bind, Except.bind]
      cases addProcedures g d.sortedProcedures <;> rfl

theorem outcome_toGraph (hnames : (d.procedures.map Prod.fst).Nodup) :
    Outcome (d.items.findSome? (DocumentItem.fault? d))
      (fun g => g.vars = d.vars ∧ g.Reads (d.mentions d.sortedProcedures) (d.edges.map (·.named))
        d.sortedProcedures) d.toGraph := by
  rw [items, List.findSome?_cons, List.findSome?_cons, List.findSome?_append,
    List.findSome?_append]
  by_cases hempty : d.procedures.isEmpty
  · simp [DocumentItem.fault?, toGraph, hempty, Outcome]
  · cases hvars : FlowGraph.checkVars [] d.vars with
    | some e => simp [DocumentItem.fault?, toGraph, FlowGraph.ofVars, hempty, hvars, Outcome]
    | none =>
        have hstart : FlowGraph.ofVars d.vars = .ok ⟨d.vars, #[], #[], []⟩ := by
          rw [FlowGraph.ofVars, hvars]
        have hsorted : (([] ++ d.sortedProcedures).map Prod.fst).Nodup :=
          ((sortedProcedures_perm d).map Prod.fst).nodup_iff.mpr hnames
        rw [toGraph_of_start hempty hstart]
        simp only [DocumentItem.fault?, if_neg hempty, hvars, Option.map_none]
        refine (outcome_addNodes (FlowGraph.reads_ofVars hstart) d.nodes).bind ?_
        rintro g₁ ⟨hvars₁, h₁⟩
        refine (outcome_addProcedures h₁ d.sortedProcedures hsorted).bind ?_
        rintro g₂ ⟨hvars₂, h₂⟩
        have hedges := outcome_addEdges (d := d) h₂ 0 d.edges
        simpa [mentions, hvars₂, hvars₁] using hedges

/-- A document whose parts are all as they have to be. -/
structure Valid (d : ProgramDocument) : Prop where
  procedures_ne_nil : d.procedures ≠ []
  vars_nodup : d.vars.Nodup
  vars_ne_empty : "" ∉ d.vars
  nodes_ne_empty : "" ∉ d.nodes
  entries_ne_empty : "" ∉ d.procedures.map Prod.snd
  ends_ne_empty : ∀ e ∈ d.edges, e.source ≠ "" ∧ e.target ≠ ""
  statements : ∀ e ∈ d.edges, e.stmt = "" ∨ ∃ s, Expr.parse e.stmt = .ok s

theorem edgeItems_fine_iff {i : ℕ} {es : List EdgeDocument} :
    (∀ item ∈ edgeItems i es, ¬item.Offends d) ↔
      ∀ e ∈ es, (e.source ≠ "" ∧ e.target ≠ "") ∧
        (e.stmt = "" ∨ ∃ s, Expr.parse e.stmt = .ok s) := by
  induction es generalizing i with
  | nil => simp [edgeItems]
  | cons e es ih =>
      have hitems : edgeItems i (e :: es) =
          .ends i e :: .statement i e :: edgeItems (i + 1) es := rfl
      have hends : ¬(DocumentItem.ends i e).Offends d ↔ e.source ≠ "" ∧ e.target ≠ "" := not_or
      have hstmt : ¬(DocumentItem.statement i e).Offends d ↔
          (e.stmt = "" ∨ ∃ s, Expr.parse e.stmt = .ok s) := by
        simp [DocumentItem.Offends, or_iff_not_imp_left]
      rw [hitems, List.forall_mem_cons, List.forall_mem_cons, List.forall_mem_cons, ih, hends, hstmt]
      exact and_assoc.symm

theorem valid_iff_items : d.Valid ↔ ∀ item ∈ d.items, ¬item.Offends d := by
  have hentries : (∀ p ∈ d.sortedProcedures, p.2 ≠ "") ↔ "" ∉ d.procedures.map Prod.snd := by
    simp only [(sortedProcedures_perm d).mem_iff, List.mem_map, not_exists, not_and]
  have hnodes : (∀ id ∈ d.nodes, id ≠ "") ↔ "" ∉ d.nodes := List.forall_mem_ne'
  simp only [items, List.forall_mem_cons, List.forall_mem_append, edgeItems_fine_iff]
  simp only [List.forall_mem_map, DocumentItem.Offends, not_not, ← ne_eq, hnodes, hentries]
  constructor
  · intro h
    exact ⟨h.procedures_ne_nil, ⟨h.vars_nodup, h.vars_ne_empty⟩, h.nodes_ne_empty,
      h.entries_ne_empty, fun e he => ⟨h.ends_ne_empty e he, h.statements e he⟩⟩
  · rintro ⟨hprocs, ⟨hnodup, hvars⟩, hnodes, hentries, hedges⟩
    exact ⟨hprocs, hnodup, hvars, hnodes, hentries, fun e he => (hedges e he).1,
      fun e he => (hedges e he).2⟩

/-- A document with distinct names of procedures has a graph exactly if it is
valid. The graph has the document's variables, procedures and edges, and its
nodes are the names in the order of their first mention, where the entries stand
between nodes and edges in ascending order of their procedures. The order in
which the procedures are listed does not matter. A document without a graph has
a first item that offends, and that item decides the error. -/
theorem toGraph_faithful (d : ProgramDocument) (hnames : (d.procedures.map Prod.fst).Nodup) :
    ((∃ g, d.toGraph = .ok g) ↔ d.Valid) ∧
    (∀ g, d.toGraph = .ok g → g.Coherent ∧ g.vars = d.vars ∧
      g.namedEdges = d.edges.map (·.named) ∧
      (∀ name entry, (name, entry) ∈ d.procedures ↔
        ∃ i, g.entry name = .ok i ∧ g.nodeId i = entry) ∧
      ∃ ps, ps.Perm d.procedures ∧ (ps.Pairwise fun p q => p.1 < q.1) ∧
        g.ids = (d.mentions ps).eraseDups) ∧
    (∀ ps, ps.Perm d.procedures → ({ d with procedures := ps } : ProgramDocument).toGraph =
      d.toGraph) ∧
    ∀ err, d.toGraph = .error err → ∃ before item after, d.items = before ++ item :: after ∧
      (∀ x ∈ before, ¬x.Offends d) ∧ item.Offends d ∧ item.Raises err := by
  have houtcome := outcome_toGraph hnames
  have hperm := sortedProcedures_perm d
  refine ⟨?_, fun g hg => ?_, fun ps hps => ?_, fun err herr => ?_⟩
  · rw [houtcome.exists_ok_iff, List.findSome?_eq_none_iff, valid_iff_items]
    simp only [DocumentItem.fault?_eq_none_iff]
  · obtain ⟨hvars, hreads⟩ := houtcome.of_ok hg
    refine ⟨hreads.coherent, hvars, hreads.edges_eq, fun name entry => ?_,
      d.sortedProcedures, hperm, sortedProcedures_ascending hnames, hreads.ids_eq⟩
    rw [← hperm.mem_iff, hreads.entry_iff]
  · have hsorted : sortedProcedures { d with procedures := ps } = d.sortedProcedures :=
      eq_of_ascending ((sortedProcedures_perm _).trans (hps.trans hperm.symm))
        (sortedProcedures_ascending ((hps.map Prod.fst).nodup_iff.mpr hnames))
        (sortedProcedures_ascending hnames)
    have hempty : ps.isEmpty = d.procedures.isEmpty := by
      rw [Bool.eq_iff_iff, List.isEmpty_iff, List.isEmpty_iff, ← List.length_eq_zero_iff,
        hps.length_eq, List.length_eq_zero_iff]
    simp only [toGraph, hsorted, hempty]
  · obtain ⟨before, item, after, hitems, hfault, hbefore⟩ :=
      List.findSome?_eq_some_iff.mp (houtcome.of_error herr)
    refine ⟨before, item, after, hitems, fun x hx => ?_, ?_, DocumentItem.raises_of_fault? hfault⟩
    · exact DocumentItem.fault?_eq_none_iff.mp (hbefore x hx)
    · by_contra hfine
      rw [DocumentItem.fault?_eq_none_iff.mpr hfine] at hfault
      cases hfault

/-- The procedures are listed in descending order, and an edge mentions the
entry `b` again. The second document has a statement that cannot be read. -/
theorem toGraph_faithful_overlapping : ∃ d d' : ProgramDocument,
    d.procedures = [("q", "c"), ("p", "b")] ∧ (∃ g, d.toGraph = .ok g ∧
      g.ids = ["a", "b", "c", "e"] ∧ g.namedEdges.map (·.1) = ["b", "e"] ∧
      ∃ i, g.entry "q" = .ok i ∧ g.nodeId i = "c") ∧
    d'.edges = [⟨"a", "b", "x = = 1"⟩] ∧ ∃ err item, d'.toGraph = .error err ∧
      item ∈ d'.items ∧ item.Offends d' ∧ item.Raises err := by
  let d : ProgramDocument :=
    ⟨["x"], [("q", "c"), ("p", "b")], ["a", "b"], [⟨"b", "e", "x = 1"⟩, ⟨"e", "a", ""⟩]⟩
  let d' : ProgramDocument := ⟨["x"], [("p", "a")], [], [⟨"a", "b", "x = = 1"⟩]⟩
  refine ⟨d, d', rfl, ?_, rfl, ?_⟩
  · obtain ⟨hok, hgraph, -, -⟩ := toGraph_faithful d (by decide)
    have hparse : Expr.parse "x = 1" = .ok (.bin .assign (.var "x") (.num 1)) := by cbv
    obtain ⟨g, hg⟩ := hok.mpr ⟨by decide, by decide, by decide, by decide, by decide, by decide,
      by simp [d, hparse]⟩
    obtain ⟨-, -, hedges, hentry, ps, hperm, hascending, hids⟩ := hgraph g hg
    obtain rfl : ps = [("p", "b"), ("q", "c")] := eq_of_ascending
      (hperm.trans (List.Perm.swap _ _ _)) hascending (List.pairwise_pair.mpr (by decide +kernel))
    exact ⟨g, hg, hids.trans (by decide), by rw [hedges]; rfl, (hentry "q" "c").mp (by simp [d])⟩
  · obtain ⟨hok, -, -, herror⟩ := toGraph_faithful d' (by decide)
    have hbroken : (Expr.parse "x = = 1").toOption = none := by cbv
    cases hresult : d'.toGraph with
    | ok g =>
        have hvalid := (hok.mp ⟨g, hresult⟩).statements ⟨"a", "b", "x = = 1"⟩ (by simp [d'])
        obtain ⟨s, hs⟩ := hvalid.resolve_left (by decide)
        simp [hs, Except.toOption] at hbroken
    | error err =>
        obtain ⟨before, item, after, hitems, -, hoffends, hraises⟩ := herror err hresult
        exact ⟨err, item, rfl, by simp [hitems], hoffends, hraises⟩

end ProgramDocument

end AffineRelations
