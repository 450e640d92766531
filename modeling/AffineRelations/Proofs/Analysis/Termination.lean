import AffineRelations.Proofs.Analysis.Fixpoint

/-!
# Every run ends

`Turns` is the worklist loop without a limit on its turns. Each vector that was
accepted has been taken from the queue or waits in it, and the potential of the
generator sets pays for each acceptance. So the loop ends after at most as many
turns as the nodes that the entry reaches have columns and bits, and the limit
that a run gives to its loop never cuts it short. No turn fails: every node that
a vector is sent to is there and has a generator set of the right dimension.
-/
namespace AffineRelations

namespace Progress
variable {r : WordRing} {k : ℕ} {p : Progress}

/-- `k` vectors have been taken from the queue, and all others that were
accepted wait in it. -/
structure Tallied (k : ℕ) (p : Progress) : Prop where
  pops_eq : p.stats.pops = k
  accepted_eq : p.stats.accepted = k + p.queue.length

theorem tallied_start (g : FlowGraph) : (start g).Tallied 0 := ⟨rfl, rfl⟩

theorem Tallied.materialize (h : p.Tallied k) (j : ℕ) : (p.materialize r j).Tallied k := by
  rcases p.materialize_cases r j with heq | ⟨e, heq⟩ | ⟨e, -, heq⟩
  · rwa [heq]
  · rw [heq]
    exact ⟨h.pops_eq, h.accepted_eq⟩
  · rw [heq]
    exact ⟨h.pops_eq, h.accepted_eq⟩

theorem Tallied.clear (h : p.Tallied k) (dim i : ℕ) : (p.clear r dim i).Tallied k := by
  rcases p.clear_cases r dim i with heq | ⟨e, heq⟩ | heq
  · rwa [heq]
  · rw [heq]
    exact ⟨h.pops_eq, h.accepted_eq⟩
  · rw [heq]
    exact ⟨h.pops_eq, h.accepted_eq⟩

theorem Tallied.offer (h : p.Tallied k) (i : ℕ) (v : WordVec) : (p.offer i v).Tallied k := by
  rcases p.offer_cases i v with heq | ⟨e, heq⟩ | ⟨node, s, s', -, -, -, heq⟩
  · rwa [heq]
  · rw [heq]
    exact ⟨h.pops_eq, h.accepted_eq⟩
  · -- the counter and the queue grow together
    have haccepted := h.accepted_eq
    rw [heq]
    refine ⟨h.pops_eq, ?_⟩
    simp only [List.length_append, List.length_singleton]
    omega

theorem Tallied.send (h : p.Tallied k) (v : WordVec) (step : Edge × WordMatrix) :
    (p.send r v step).Tallied k := by
  rcases send_cases r v p step with heq | ⟨e, heq⟩ | heq
  · rwa [heq]
  · rw [heq]
    exact ⟨h.pops_eq, h.accepted_eq⟩
  · rw [heq]
    exact h.offer _ _

theorem Tallied.turn (h : p.Tallied k) {item : ℕ × WordVec} {queue : List (ℕ × WordVec)}
    (hqueue : p.queue = item :: queue) : (p.turn r item queue).Tallied (k + 1) := by
  refine List.foldlRecOn _ _ ?_ fun p hp step _ => hp.send item.2 step
  have hpops := h.pops_eq
  have haccepted := h.accepted_eq
  rw [hqueue, List.length_cons] at haccepted
  constructor
  · dsimp only
    omega
  · dsimp only
    omega

/-- The loop without a limit: `k` items in a row are taken from the queue and
sent along all edges. -/
inductive Turns (r : WordRing) : ℕ → Progress → Progress → Prop
  | zero (p : Progress) : Turns r 0 p p
  | succ {k : ℕ} {p p' : Progress} {item : ℕ × WordVec} {queue : List (ℕ × WordVec)} :
      p.failure = none → p.queue = item :: queue → Turns r k (p.turn r item queue) p' →
      Turns r (k + 1) p p'

/-- No turns lead on from an empty queue, so no others are longer than those
that lead to it. -/
theorem Turns.le_of_queue_eq_nil {j : ℕ} {p' q : Progress} (h : Turns r k p p')
    (hend : p'.queue = []) (hj : Turns r j p q) : j ≤ k := by
  induction h generalizing j with
  | zero p =>
      cases hj with
      | zero => exact le_rfl
      | succ _ hqueue _ => simp [hend] at hqueue
  | succ _ hqueue _ ih =>
      cases hj with
      | zero => exact Nat.zero_le _
      | succ _ hqueue' hrest =>
          obtain ⟨rfl, rfl⟩ := List.cons.inj (hqueue.symm.trans hqueue')
          exact Nat.succ_le_succ (ih hend hrest)

/-- What the turns start from holds after any number of them. -/
theorem Underway.turns {n : ℕ} {g : FlowGraph} {entry : ℕ} (hsquare : Squared n g entry)
    {nodes : List ℕ} (hnodes : ∀ j, g.Reaches entry j → j ∈ nodes) {q : Progress}
    (h : Underway r n g entry [] p) (hturns : Turns r k p q) : Underway r n g entry [] q := by
  induction hturns with
  | zero => exact h
  | succ _ hqueue _ ih => exact ih (h.turn hsquare hnodes hqueue).1

/-- A loop with enough fuel is a loop without limit, and the potential bounds
the number of its turns. -/
theorem Underway.turns_drain {n : ℕ} {g : FlowGraph} {entry : ℕ} (hsquare : Squared n g entry)
    {nodes : List ℕ} (hnodes : ∀ j, g.Reaches entry j → j ∈ nodes) {fuel : ℕ}
    (h : Underway r n g entry [] p) (ht : p.Tallied k)
    (hfuel : p.graph.potential r nodes + p.queue.length ≤ fuel) :
    ∃ m ≤ p.graph.potential r nodes + p.queue.length,
      Turns r m p (p.drain r fuel) ∧ (p.drain r fuel).Tallied (k + m) := by
  induction fuel generalizing p k with
  | zero => exact ⟨0, Nat.zero_le _, .zero p, ht⟩
  | succ fuel ih =>
      cases hqueue : p.queue with
      | nil =>
          rw [Progress.drain, if_neg (by simp [h.failure_eq]), hqueue]
          exact ⟨0, Nat.zero_le _, .zero p, ht⟩
      | cons item queue =>
          obtain ⟨hnext, -, hpot⟩ := h.turn hsquare hnodes hqueue
          rw [hqueue, List.length_cons] at hfuel
          obtain ⟨m, hm, hturns, htally⟩ := ih hnext (ht.turn hqueue) (by omega)
          rw [drain_cons h.failure_eq hqueue, List.length_cons]
          refine ⟨m + 1, by omega, .succ h.failure_eq hqueue hturns, ?_⟩
          rwa [Nat.add_right_comm] at htally

end Progress

theorem FlowGraph.ncard_eq_length {P : ℕ → Prop} {l : List ℕ} (hl : l.Nodup)
    (hmem : ∀ i, i ∈ l ↔ P i) : {i | P i}.ncard = l.length := by
  have hset : {i | P i} = (l.toFinset : Set ℕ) := by
    ext i
    rw [Set.mem_ofPred_eq, Finset.mem_coe, List.mem_toFinset, hmem]
  rw [hset, Set.ncard_coe_finset, List.toFinset_card_of_nodup hl]

theorem FlowGraph.ncard_reaches {g : FlowGraph} (hg : g.Bounded) {i : ℕ}
    (hi : i < g.nodes.size) : {j | g.Reaches i j}.ncard = (g.reach i).length :=
  ncard_eq_length (closedList_reach hg hi).nodup fun _ => mem_reach hg hi

theorem FlowGraph.entry_eq_error {g : FlowGraph} {name : String}
    (h : name ∉ g.procedures.map Prod.fst) : g.entry name = .error (.entryNotFound name) := by
  have hnone : (g.procedures.find? fun q => q.1 == name) = none := by
    rw [List.find?_eq_none]
    intro q hq hname
    exact h (List.mem_map.mpr ⟨q, hq, eq_of_beq hname⟩)
  rw [entry, hnone]

theorem FlowGraph.exists_entry_eq_ok {g : FlowGraph} {name : String}
    (h : name ∈ g.procedures.map Prod.fst) : ∃ i, g.entry name = .ok i := by
  obtain ⟨q, hq, hname⟩ := List.mem_map.mp h
  cases hfind : g.procedures.find? fun q => q.1 == name with
  | none => exact absurd (beq_of_eq hname) (List.find?_eq_none.mp hfind q hq)
  | some q' => exact ⟨q'.2, by rw [entry, hfind]⟩

namespace Analyzer
open FlowGraph

theorem tallied_opened (a : Analyzer) (g : FlowGraph) (entry : ℕ) :
    (a.opened g entry).Tallied 0 := by
  refine List.foldlRecOn _ _ ?_ fun p hp i _ => hp.clear _ _
  exact List.foldlRecOn _ _ (Progress.tallied_start g) fun p hp j _ => hp.materialize j

theorem tallied_prepare (a : Analyzer) (g : FlowGraph) (entry : ℕ) :
    (a.prepare g entry).Tallied 0 := by
  rw [prepare_eq]
  exact List.foldlRecOn _ _ (a.tallied_opened g entry) fun p hp i _ => hp.offer _ _

/-- A run that gets past its checks goes through its loop to the end. -/
theorem turns_run (a : Analyzer) {g : FlowGraph} (hg : g.WellFormed) {entry : ℕ}
    (hvars : g.vars.length = a.vars) (hentry : g.entry a.entry = .ok entry) :
    ∃ k p, Progress.Turns a.ring k (a.prepare g entry) p ∧ p.queue = [] ∧ p.Tallied k ∧
      (∀ j q, Progress.Turns a.ring j (a.prepare g entry) q → q.failure = none) ∧
      k ≤ {i | g.Reaches entry i}.ncard * ((a.vars + 1) * a.ring.width) ∧
      a.run g = (p.graph, .ok ⟨entry, p.stats, p.events.toList⟩) := by
  have hsquare := a.squared_opened hg hentry hvars
  have hnodes (j : ℕ) := (a.opened_spec hg hentry).mem_reach hg hentry (i := j)
  obtain ⟨hunder, -, hpot⟩ := a.underway_prepare hg hentry
  have hfuel := hpot.trans (a.length_reach_mul_le_fuel hg hentry)
  obtain ⟨-, hqueue, -⟩ := hunder.drain hsquare hnodes hfuel
  obtain ⟨k, hk, hturns, htally⟩ :=
    hunder.turns_drain hsquare hnodes (a.tallied_prepare g entry) hfuel
  rw [Nat.zero_add] at htally
  refine ⟨k, _, hturns, hqueue, htally, fun j q hq => (hunder.turns hsquare hnodes hq).failure_eq,
    ?_, a.run_eq_drain hg hvars hentry⟩
  rw [ncard_reaches hg.bounded (hg.entry_lt a.entry entry hentry)]
  exact hk.trans hpot

/-- A run that does not get past its checks changes nothing. -/
theorem run_refused (a : Analyzer) {g : FlowGraph}
    (h : g.vars.length ≠ a.vars ∨ a.entry ∉ g.procedures.map Prod.fst) :
    ∃ e, a.run g = (g, .error e) ∧
      (e = .varCount g.vars.length a.vars ∨ e = .entry (.entryNotFound a.entry)) := by
  unfold run
  split_ifs with hvars
  · exact ⟨_, rfl, .inl rfl⟩
  · rw [entry_eq_error (h.resolve_left hvars)]
    exact ⟨_, rfl, .inr rfl⟩

/-- A run on a graph that was built step by step always ends. It is refused
exactly if the graph is absent, has another number of variables or lacks the
entry procedure, and then nothing changes. No other error occurs: no matrix and
no vector has a wrong size, and no node, edge or generator set is missing.
Otherwise the searches find all that is reachable, the worklist loop runs until
its queue is empty, no state on its way has failed, and each vector that was
accepted is taken from the queue once. -/
theorem run_terminates (a : Analyzer) {program : Option FlowGraph}
    (hbuilt : ∀ g ∈ program, g.Built) :
    ((∃ e, (a.run? program).2 = .error e) ↔ program = none ∨ ∃ g, program = some g ∧
        (g.vars.length ≠ a.vars ∨ a.entry ∉ g.procedures.map Prod.fst)) ∧
      (∀ e, (a.run? program).2 = .error e → (a.run? program).1 = program ∧
        (e = .noGraph ∨ (∃ g, program = some g ∧ e = .varCount g.vars.length a.vars) ∨
          e = .entry (.entryNotFound a.entry))) ∧
      ∀ found, (a.run? program).2 = .ok found →
        ∃ g p, program = some g ∧ g.entry a.entry = .ok found.entry ∧
          (∀ i, i ∈ g.reach found.entry ↔ g.Reaches found.entry i) ∧
          (∀ i, i ∈ g.reachAny g.entries ↔ ∃ name j, g.entry name = .ok j ∧ g.Reaches j i) ∧
          Progress.Turns a.ring found.stats.pops (a.prepare g found.entry) p ∧ p.queue = [] ∧
          (∀ k q, Progress.Turns a.ring k (a.prepare g found.entry) q →
            k ≤ found.stats.pops ∧ q.failure = none) ∧
          a.run? program = (some p.graph, .ok ⟨found.entry, p.stats, p.events.toList⟩) ∧
          found.stats.pops = found.stats.accepted ∧
          found.stats.accepted ≤
            {i | g.Reaches found.entry i}.ncard * ((a.vars + 1) * a.ring.width) := by
  cases program with
  | none => simp [run?]
  | some g =>
      have hg := (hbuilt g rfl).wellFormed
      by_cases hrefused : g.vars.length ≠ a.vars ∨ a.entry ∉ g.procedures.map Prod.fst
      · obtain ⟨e, hrun, he⟩ := a.run_refused hrefused
        have hrun? : a.run? (some g) = (some g, .error e) := by simp only [run?, hrun]
        rw [hrun?]
        refine ⟨⟨fun _ => .inr ⟨g, rfl, hrefused⟩, fun _ => ⟨e, rfl⟩⟩, ?_, by simp⟩
        rintro _ ⟨⟩
        exact ⟨rfl, .inr (he.imp_left fun h => ⟨g, rfl, h⟩)⟩
      · obtain ⟨hvars, hname⟩ := not_or.mp hrefused
        obtain ⟨entry, hentry⟩ := exists_entry_eq_ok (not_not.mp hname)
        obtain ⟨k, p, hturns, hqueue, htally, hnone, hle, hrun⟩ :=
          a.turns_run hg (not_not.mp hvars) hentry
        have hrun? : a.run? (some g) =
            (some p.graph, .ok ⟨entry, p.stats, p.events.toList⟩) := by simp only [run?, hrun]
        rw [hrun?]
        refine ⟨⟨by simp, ?_⟩, by simp, ?_⟩
        · rintro (hnone | ⟨g', hsome, h⟩)
          · cases hnone
          · obtain rfl := Option.some.inj hsome
            exact (hrefused h).elim
        · rintro _ ⟨⟩
          have haccepted : p.stats.accepted = k := by simp [htally.accepted_eq, hqueue]
          refine ⟨g, p, rfl, hentry, fun i => mem_reach hg.bounded (hg.entry_lt _ _ hentry),
            fun i => hg.mem_reachAny_entries, ?_⟩
          simp only [htally.pops_eq, haccepted]
          exact ⟨hturns, hqueue,
            fun j q hq => ⟨hturns.le_of_queue_eq_nil hqueue hq, hnone j q hq⟩, trivial, trivial, hle⟩

/-- Modulo 8, after an analysis modulo 32, the loop around `x = x + 2` is done
after four turns, of the twelve that two nodes, two columns and three bits
allow. -/
theorem run_terminates_evenLoop :
    ∃ (a b : Analyzer) (found : Findings), (b.run evenLoop).1.Built ∧
      (a.run? (some (b.run evenLoop).1)).2 = .ok found ∧
      found.stats.pops = 4 ∧ found.stats.pops = found.stats.accepted ∧
      (∀ k q, Progress.Turns a.ring k (a.prepare (b.run evenLoop).1 found.entry) q →
        k ≤ 4 ∧ q.failure = none) ∧
      found.stats.accepted ≤ {i | (b.run evenLoop).1.Reaches found.entry i}.ncard *
        ((a.vars + 1) * a.ring.width) := by
  let a : Analyzer := ⟨.ofBits 3 (by decide) (by decide), 1, "main"⟩
  let b : Analyzer := ⟨.ofBits 5 (by decide) (by decide), 1, "main"⟩
  have hbuilt : (b.run evenLoop).1.Built := built_evenLoop.run b
  have hvars : (b.run evenLoop).1.vars.length = a.vars := by decide +kernel
  have hname : a.entry ∈ (b.run evenLoop).1.procedures.map Prod.fst := by decide +kernel
  have hpops : (a.run? (some (b.run evenLoop).1)).2.toOption.map (·.stats.pops) = some 4 := by
    decide +kernel
  have hall : ∀ g ∈ some (b.run evenLoop).1, g.Built := by
    rintro _ ⟨⟩
    exact hbuilt
  obtain ⟨hrefused, -, hdone⟩ := a.run_terminates hall
  cases hrun : (a.run? (some (b.run evenLoop).1)).2 with
  | error e =>
      rcases hrefused.mp ⟨e, hrun⟩ with hnone | ⟨g, hg, h⟩
      · cases hnone
      · obtain rfl := Option.some.inj hg
        exact (h.elim (· hvars) (· hname)).elim
  | ok found =>
      obtain ⟨g, -, hg, -, -, -, -, -, hturns, -, heq, hle⟩ := hdone found hrun
      obtain rfl := Option.some.inj hg
      rw [hrun] at hpops
      have hfour : found.stats.pops = 4 := Option.some.inj hpops
      rw [hfour] at hturns
      exact ⟨a, b, found, hbuilt, hrun, hfour, heq, hturns, hle⟩

end Analyzer

end AffineRelations
