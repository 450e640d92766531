import AffineRelations.Proofs.Analysis.Offer

/-!
# The worklist

The queue holds vectors that were offered and accepted. What a generator set
spans need not be the span of vectors that were queued for its node: an
insertion stores resolvents and companions, and drops vectors that are not
independent. The invariant speaks of spans only. Up to what is still queued,
a node's span is carried by each matrix of each edge into the span at the
edge's end. A vector that was rejected is in the span already, so nothing is
lost when the queue forgets it.
-/
namespace AffineRelations

variable {r : WordRing} {n : ℕ} {g : FlowGraph} {entry : ℕ}

namespace FlowGraph

/-- A family of submodules that holds the unit vectors at the entry and is
carried along every matrix of every edge that the entry reaches. -/
structure IsClosed (r : WordRing) (n : ℕ) (g : FlowGraph) (entry : ℕ)
    (S : ℕ → Submodule r.Elem (Fin n → r.Elem)) : Prop where
  unit_mem : ∀ i : Fin n, Pi.single i 1 ∈ S entry
  step_mem : ∀ i, g.Reaches entry i → ∀ e ∈ g.outEdges i, ∀ m ∈ e.matrices, ∀ x ∈ S i,
    Matrix.vecMul x (r.view n n m) ∈ S e.target

theorem isClosed_congr {g' : FlowGraph} (h : g.Regenerates g')
    {S : ℕ → Submodule r.Elem (Fin n → r.Elem)} :
    g'.IsClosed r n entry S ↔ g.IsClosed r n entry S := by
  constructor
  · rintro ⟨hunit, hstep⟩
    simp only [reaches_congr h.skeleton_eq, h.outEdges_eq] at hstep
    exact ⟨hunit, hstep⟩
  · rintro ⟨hunit, hstep⟩
    refine ⟨hunit, ?_⟩
    simpa only [reaches_congr h.skeleton_eq, h.outEdges_eq] using hstep

/-- The vectors that all matrices on the edges from `i` carry into a family. -/
def settled (r : WordRing) (n : ℕ) (g : FlowGraph)
    (S : ℕ → Submodule r.Elem (Fin n → r.Elem)) (i : ℕ) : Submodule r.Elem (Fin n → r.Elem) :=
  ⨅ step ∈ Progress.steps g i, (S step.1.target).comap (r.view n n step.2).vecMulLinear

theorem mem_settled {S : ℕ → Submodule r.Elem (Fin n → r.Elem)} {i : ℕ} {x : Fin n → r.Elem} :
    x ∈ g.settled r n S i ↔ ∀ step ∈ Progress.steps g i,
      Matrix.vecMul x (r.view n n step.2) ∈ S step.1.target := by
  simp [settled, Submodule.mem_iInf]

theorem settled_mono {S S' : ℕ → Submodule r.Elem (Fin n → r.Elem)} (h : ∀ i, S i ≤ S' i)
    (i : ℕ) : g.settled r n S i ≤ g.settled r n S' i := by
  intro x hx
  rw [mem_settled] at hx ⊢
  exact fun step hstep => h _ (hx step hstep)

theorem mem_steps {i : ℕ} {step : Edge × WordMatrix} :
    step ∈ Progress.steps g i ↔ step.1 ∈ g.outEdges i ∧ step.2 ∈ step.1.matrices := by
  simp only [Progress.steps, List.mem_flatMap, List.mem_map]
  constructor
  · rintro ⟨e, he, m, hm, rfl⟩
    exact ⟨he, hm⟩
  · rintro ⟨he, hm⟩
    exact ⟨step.1, he, step.2, hm, rfl⟩

theorem Reaches.step {i : ℕ} (hi : g.Reaches entry i) {e : Edge} (he : e ∈ g.outEdges i) :
    g.Reaches entry e.target :=
  hi.tail (List.mem_map.mpr ⟨e, he, rfl⟩)

end FlowGraph

namespace Progress

/-- The span of the items of a list that wait for a node. -/
def backlog (r : WordRing) (n : ℕ) (items : List (ℕ × WordVec)) (i : ℕ) :
    Submodule r.Elem (Fin n → r.Elem) :=
  Submodule.span r.Elem {x | ∃ v, (i, v) ∈ items ∧ r.coords n v = x}

theorem backlog_mono {items items' : List (ℕ × WordVec)} (h : items ⊆ items') (i : ℕ) :
    backlog r n items i ≤ backlog r n items' i := by
  apply Submodule.span_mono
  rintro x ⟨v, hv, rfl⟩
  exact ⟨v, h hv, rfl⟩

theorem coords_mem_backlog {items : List (ℕ × WordVec)} {i : ℕ} {v : WordVec}
    (h : (i, v) ∈ items) : r.coords n v ∈ backlog r n items i :=
  Submodule.subset_span ⟨v, h, rfl⟩

/-- The state between offers. Beside the queue, `extra` lists items that have
been taken from it but not yet sent along all edges. -/
structure Underway (r : WordRing) (n : ℕ) (g : FlowGraph) (entry : ℕ)
    (extra : List (ℕ × WordVec)) (p : Progress) : Prop where
  failure_eq : p.failure = none
  regenerates : g.Regenerates p.graph
  fits : ∀ i, g.Reaches entry i → ∃ s, p.graph.generatorsAt i = some s ∧ s.Fits r n
  others : ∀ i, ¬g.Reaches entry i → p.graph.generatorsAt i = g.generatorsAt i
  queued : ∀ q ∈ p.queue, g.Reaches entry q.1 ∧ q.2.length = n ∧
    r.coords n q.2 ∈ p.graph.spanAt r n q.1
  covered : ∀ i, g.Reaches entry i → p.graph.spanAt r n i ≤
    g.settled r n (p.graph.spanAt r n) i ⊔ backlog r n (extra ++ p.queue) i
  below : ∀ S, g.IsClosed r n entry S → ∀ i, g.Reaches entry i → p.graph.spanAt r n i ≤ S i

section Underway
variable {extra : List (ℕ × WordVec)} {p p' : Progress}

theorem Underway.offered (h : Underway r n g entry extra p) {i : ℕ} {v : WordVec}
    (hi : g.Reaches entry i) (hlen : v.length = n)
    (hbelow : ∀ S, g.IsClosed r n entry S → r.coords n v ∈ S i)
    (ho : Offered r n p i v p') : Underway r n g entry extra p' where
  failure_eq := ho.failure_eq.trans h.failure_eq
  regenerates := h.regenerates.trans ho.regenerates
  fits := fun j hj => ho.fits (h.fits j hj)
  others := by
    intro j hj
    have hij : i ≠ j := by
      rintro rfl
      exact hj hi
    rw [ho.generatorsAt_ne hij, h.others j hj]
  queued := by
    have hold (q : ℕ × WordVec) (hq : q ∈ p.queue) : g.Reaches entry q.1 ∧ q.2.length = n ∧
        r.coords n q.2 ∈ p'.graph.spanAt r n q.1 := by
      obtain ⟨hreach, hq, hmem⟩ := h.queued q hq
      exact ⟨hreach, hq, ho.le_spanAt _ hmem⟩
    intro q hq
    rcases ho.queue_cases with rfl | hqueue
    · exact h.queued q hq
    · rw [hqueue, List.mem_append, List.mem_singleton] at hq
      rcases hq with hq | rfl
      · exact hold q hq
      · exact ⟨hi, hlen, ho.mem_spanAt⟩
  covered := by
    intro j hj
    rcases ho.queue_cases with rfl | hqueue
    · exact h.covered j hj
    · have hsub : extra ++ p.queue ⊆ extra ++ p'.queue := by
        rw [hqueue, ← List.append_assoc]
        exact List.subset_append_left _ _
      -- what was settled stays so because spans only grow; the new vector waits in the queue
      rw [ho.spanAt_eq j]
      refine sup_le ((h.covered j hj).trans ?_) ?_
      · exact sup_le_sup (FlowGraph.settled_mono ho.le_spanAt j) (backlog_mono hsub j)
      · split_ifs with hij
        · subst hij
          rw [Submodule.span_singleton_le_iff_mem]
          refine Submodule.mem_sup_right (coords_mem_backlog ?_)
          simp [hqueue]
        · exact bot_le
  below := by
    intro S hS j hj
    rw [ho.spanAt_eq j]
    refine sup_le (h.below S hS j hj) ?_
    split_ifs with hij
    · subst hij
      rw [Submodule.span_singleton_le_iff_mem]
      exact hbelow S hS
    · exact bot_le

/-- What a run of offers does, one for each member of a list. -/
theorem Underway.foldl_offered {α : Type} (node : α → ℕ) (vec : α → WordVec)
    {f : Progress → α → Progress} {xs : List α} {nodes : List ℕ}
    (hnodes : ∀ j, g.Reaches entry j → j ∈ nodes)
    (hreach : ∀ x ∈ xs, g.Reaches entry (node x)) (hlen : ∀ x ∈ xs, (vec x).length = n)
    (hbelow : ∀ x ∈ xs, ∀ S, g.IsClosed r n entry S → r.coords n (vec x) ∈ S (node x))
    (hf : ∀ x ∈ xs, ∀ p, Underway r n g entry extra p → Offered r n p (node x) (vec x) (f p x))
    (h : Underway r n g entry extra p) :
    Underway r n g entry extra (xs.foldl f p) ∧
      (∀ j, p.graph.spanAt r n j ≤ (xs.foldl f p).graph.spanAt r n j) ∧
      (∀ x ∈ xs, r.coords n (vec x) ∈ (xs.foldl f p).graph.spanAt r n (node x)) ∧
      (xs.foldl f p).graph.potential r nodes + (xs.foldl f p).queue.length ≤
        p.graph.potential r nodes + p.queue.length := by
  induction xs generalizing p with
  | nil => exact ⟨h, fun _ => le_rfl, by simp, le_rfl⟩
  | cons x xs ih =>
      have hx : x ∈ x :: xs := List.mem_cons_self
      have htail {y : α} (hy : y ∈ xs) : y ∈ x :: xs := List.mem_cons_of_mem x hy
      have ho := hf x hx p h
      have hnext := h.offered (hreach x hx) (hlen x hx) (hbelow x hx) ho
      obtain ⟨hfinal, hmono, harrive, hpot⟩ := ih (fun y hy => hreach y (htail hy))
        (fun y hy => hlen y (htail hy)) (fun y hy => hbelow y (htail hy))
        (fun y hy => hf y (htail hy)) hnext
      refine ⟨hfinal, fun j => (ho.le_spanAt j).trans (hmono j), ?_, ?_⟩
      · intro y hy
        rcases List.mem_cons.mp hy with rfl | hy
        · exact hmono _ ho.mem_spanAt
        · exact harrive y hy
      · exact hpot.trans (ho.potential_le (hnodes _ (hreach x hx)))

/-- The edges that the entry reaches have square matrices of one size. -/
def Squared (n : ℕ) (g : FlowGraph) (entry : ℕ) : Prop :=
  ∀ i, g.Reaches entry i → ∀ e ∈ g.outEdges i, ∀ m ∈ e.matrices, m.Square n

/-- A vector that is sent along all steps from its node is settled. -/
theorem Underway.foldl_send (hsquare : Squared n g entry) {i : ℕ} {v : WordVec}
    (hi : g.Reaches entry i) (hlen : v.length = n)
    (hbelow : ∀ S, g.IsClosed r n entry S → r.coords n v ∈ S i)
    {nodes : List ℕ} (hnodes : ∀ j, g.Reaches entry j → j ∈ nodes)
    (h : Underway r n g entry extra p) :
    Underway r n g entry extra ((steps g i).foldl (send r v) p) ∧
      (∀ j, p.graph.spanAt r n j ≤ ((steps g i).foldl (send r v) p).graph.spanAt r n j) ∧
      r.coords n v ∈
        g.settled r n (((steps g i).foldl (send r v) p).graph.spanAt r n) i ∧
      ((steps g i).foldl (send r v) p).graph.potential r nodes +
          ((steps g i).foldl (send r v) p).queue.length ≤
        p.graph.potential r nodes + p.queue.length := by
  have hstep {x : Edge × WordMatrix} (hx : x ∈ steps g i) :
      g.Reaches entry x.1.target ∧ x.2.Square n := by
    obtain ⟨he, hm⟩ := FlowGraph.mem_steps.mp hx
    exact ⟨hi.step he, hsquare i hi x.1 he x.2 hm⟩
  have hcoords {x : Edge × WordMatrix} (hx : x ∈ steps g i) :
      r.coords n (r.apply x.2 v) = Matrix.vecMul (r.coords n v) (r.view n n x.2) :=
    r.coords_apply (hstep hx).2.rows_eq (hstep hx).2.cols_eq
  obtain ⟨hfinal, hmono, harrive, hpot⟩ := h.foldl_offered
    (fun x : Edge × WordMatrix => x.1.target) (fun x => r.apply x.2 v) hnodes
    (fun x hx => (hstep hx).1) (fun x hx => by simp [(hstep hx).2.cols_eq])
    (by
      intro x hx S hS
      obtain ⟨he, hm⟩ := FlowGraph.mem_steps.mp hx
      rw [hcoords hx]
      exact hS.step_mem i hi x.1 he x.2 hm _ (hbelow S hS))
    (by
      intro x hx p hp
      obtain ⟨s, hs, hfit⟩ := hp.fits _ (hstep hx).1
      exact send_spec hp.failure_eq (hstep hx).2 hs hfit hlen)
  refine ⟨hfinal, hmono, FlowGraph.mem_settled.mpr ?_, hpot⟩
  intro x hx
  rw [← hcoords hx]
  exact harrive x hx

/-- An item whose vector is settled need not be remembered. -/
theorem Underway.forget {item : ℕ × WordVec} (h : Underway r n g entry [item] p)
    (hsettled : r.coords n item.2 ∈ g.settled r n (p.graph.spanAt r n) item.1) :
    Underway r n g entry [] p where
  failure_eq := h.failure_eq
  regenerates := h.regenerates
  fits := h.fits
  others := h.others
  queued := h.queued
  below := h.below
  covered := by
    intro i hi
    refine (h.covered i hi).trans (sup_le le_sup_left (Submodule.span_le.mpr ?_))
    rintro x ⟨v, hv, rfl⟩
    rcases List.mem_append.mp hv with hv | hv
    · obtain rfl : (i, v) = item := List.mem_singleton.mp hv
      exact Submodule.mem_sup_left hsettled
    · exact Submodule.mem_sup_right (coords_mem_backlog hv)

/-- Taking an item from the queue leaves it to be remembered beside it. -/
theorem Underway.take {item : ℕ × WordVec} {queue : List (ℕ × WordVec)}
    (h : Underway r n g entry [] p) (hqueue : p.queue = item :: queue) (stats : Stats) :
    Underway r n g entry [item] { p with queue := queue, stats := stats } where
  failure_eq := h.failure_eq
  regenerates := h.regenerates
  fits := h.fits
  others := h.others
  queued := by
    intro q hq
    exact h.queued q (hqueue ▸ List.mem_cons_of_mem item hq)
  below := h.below
  covered := by
    intro i hi
    have hcovered := h.covered i hi
    rw [hqueue] at hcovered
    exact hcovered

/-- The state after an item has been taken from the front of the queue and sent
along all edges. -/
def turn (r : WordRing) (p : Progress) (item : ℕ × WordVec) (queue : List (ℕ × WordVec)) :
    Progress :=
  (steps p.graph item.1).foldl (send r item.2)
    { p with queue := queue, stats := { p.stats with pops := p.stats.pops + 1 } }

theorem drain_cons (hfail : p.failure = none) {item : ℕ × WordVec}
    {queue : List (ℕ × WordVec)} (hqueue : p.queue = item :: queue) (fuel : ℕ) :
    p.drain r (fuel + 1) = (p.turn r item queue).drain r fuel := by
  rw [drain, if_neg (by simp [hfail]), hqueue]
  rfl

/-- What every turn keeps is kept by the loop. -/
theorem drain_preserves {P : Progress → Prop}
    (hturn : ∀ {p item queue}, P p → p.queue = item :: queue → P (p.turn r item queue))
    (fuel : ℕ) (hp : P p) : P (p.drain r fuel) := by
  induction fuel generalizing p with
  | zero => exact hp
  | succ fuel ih =>
      cases hfail : p.failure with
      | some e =>
          rw [drain, if_pos (by simp [hfail])]
          exact hp
      | none =>
          cases hqueue : p.queue with
          | nil =>
              rw [drain, if_neg (by simp [hfail]), hqueue]
              exact hp
          | cons item queue =>
              rw [drain_cons hfail hqueue]
              exact ih (hturn hp hqueue)

/-- One turn settles the vector that it takes, and the potential pays for what
it adds to the queue. -/
theorem Underway.turn (hsquare : Squared n g entry) {nodes : List ℕ}
    (hnodes : ∀ j, g.Reaches entry j → j ∈ nodes) {item : ℕ × WordVec}
    {queue : List (ℕ × WordVec)} (h : Underway r n g entry [] p)
    (hqueue : p.queue = item :: queue) :
    Underway r n g entry [] (p.turn r item queue) ∧
      (∀ j, p.graph.spanAt r n j ≤ (p.turn r item queue).graph.spanAt r n j) ∧
      (p.turn r item queue).graph.potential r nodes + (p.turn r item queue).queue.length ≤
        p.graph.potential r nodes + queue.length := by
  obtain ⟨hi, hlen, hmem⟩ := h.queued item (hqueue ▸ List.mem_cons_self)
  -- a queued vector was accepted, so every closed family has it at its node
  have hbelow (S : ℕ → Submodule r.Elem (Fin n → r.Elem)) (hS : g.IsClosed r n entry S) :
      r.coords n item.2 ∈ S item.1 := h.below S hS item.1 hi hmem
  have hsteps : Progress.steps p.graph item.1 = Progress.steps g item.1 := by
    rw [Progress.steps, h.regenerates.outEdges_eq, Progress.steps]
  obtain ⟨hnext, hmono, hsettled, hpot⟩ :=
    (h.take hqueue { p.stats with pops := p.stats.pops + 1 }).foldl_send hsquare hi hlen
      hbelow hnodes
  rw [Progress.turn, hsteps]
  exact ⟨hnext.forget hsettled, hmono, hpot⟩

/-- With fuel for the queue and for all that the generator sets can still
accept, the queue runs empty. -/
theorem Underway.drain (hsquare : Squared n g entry) {nodes : List ℕ}
    (hnodes : ∀ j, g.Reaches entry j → j ∈ nodes) {fuel : ℕ}
    (h : Underway r n g entry [] p)
    (hfuel : p.graph.potential r nodes + p.queue.length ≤ fuel) :
    Underway r n g entry [] (p.drain r fuel) ∧ (p.drain r fuel).queue = [] ∧
      ∀ j, p.graph.spanAt r n j ≤ (p.drain r fuel).graph.spanAt r n j := by
  induction fuel generalizing p with
  | zero =>
      have hempty : p.queue.length = 0 := by omega
      exact ⟨h, List.length_eq_zero_iff.mp hempty, fun _ => le_rfl⟩
  | succ fuel ih =>
      cases hqueue : p.queue with
      | nil =>
          rw [Progress.drain, if_neg (by simp [h.failure_eq]), hqueue]
          exact ⟨h, hqueue, fun _ => le_rfl⟩
      | cons item queue =>
          obtain ⟨hnext, hmono, hpot⟩ := h.turn hsquare hnodes hqueue
          rw [hqueue, List.length_cons] at hfuel
          have hdrain := ih hnext (hpot.trans (Nat.le_of_succ_le_succ hfuel))
          rw [drain_cons h.failure_eq hqueue]
          exact ⟨hdrain.1, hdrain.2.1, fun j => (hmono j).trans (hdrain.2.2 j)⟩

end Underway

end Progress

end AffineRelations
