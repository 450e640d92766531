import AffineRelations.Analysis.Reach
import AffineRelations.Proofs.FlowGraph.Skeleton
import Mathlib.Data.List.Nodup
import Mathlib.Data.List.Perm.Subperm

/-!
# Breadth-first search

In a graph whose edges end at nodes, the search lists exactly the nodes that
are reachable from its start, and lists none twice. The number of nodes is
enough fuel: nodes that are queued have been seen, every step takes one of them
from the queue for good, and no more nodes can be seen than there are.
-/
namespace AffineRelations

theorem length_le_of_nodup_of_lt {l : List ℕ} {n : ℕ} (hl : l.Nodup) (hlt : ∀ i ∈ l, i < n) :
    l.length ≤ n := by
  have hsub : l ⊆ List.range n := fun i hi => List.mem_range.mpr (hlt i hi)
  simpa using (List.subperm_of_subset hl hsub).length_le

namespace FlowGraph

theorem mem_fresh {seen js : List ℕ} {j : ℕ} : j ∈ fresh seen js ↔ j ∈ js ∧ j ∉ seen := by
  induction js generalizing seen with
  | nil => simp [fresh]
  | cons k js ih =>
      rw [fresh]
      split_ifs with hk
      · have hk : k ∈ seen := by simpa using hk
        rw [ih, List.mem_cons]
        grind
      · have hk : k ∉ seen := by simpa using hk
        rw [List.mem_cons, ih, List.mem_cons, List.mem_cons]
        grind

theorem nodup_fresh (seen js : List ℕ) : (fresh seen js).Nodup := by
  induction js generalizing seen with
  | nil => simp [fresh]
  | cons k js ih =>
      rw [fresh]
      split_ifs
      · exact ih seen
      · refine List.nodup_cons.mpr ⟨?_, ih _⟩
        simp [mem_fresh]

/-- Every edge that leaves a node ends at a node. -/
def Bounded (g : FlowGraph) : Prop := ∀ i, ∀ j ∈ g.targets i, j < g.nodes.size

/-- A state of the search that has fuel for all nodes it may still meet. -/
structure Searching (g : FlowGraph) (steps : ℕ) (queue seen : List ℕ) : Prop where
  queue_seen : ∀ i ∈ queue, i ∈ seen
  queue_nodup : queue.Nodup
  seen_nodup : seen.Nodup
  seen_lt : ∀ i ∈ seen, i < g.nodes.size
  enough : g.nodes.size + queue.length ≤ steps + seen.length

section Search
variable {g : FlowGraph} {steps : ℕ} {queue seen : List ℕ}

theorem Searching.queue_eq_nil (h : g.Searching 0 queue seen) : queue = [] := by
  have hle := length_le_of_nodup_of_lt h.seen_nodup h.seen_lt
  have hqueue := h.enough
  exact List.length_eq_zero_iff.mp (by omega)

theorem Searching.step (hg : g.Bounded) {i : ℕ} (h : g.Searching (steps + 1) (i :: queue) seen) :
    g.Searching steps (queue ++ fresh seen (g.targets i))
      (fresh seen (g.targets i) ++ seen) where
  queue_seen := by
    intro j hj
    rcases List.mem_append.mp hj with hj | hj
    · exact List.mem_append_right _ (h.queue_seen j (List.mem_cons_of_mem i hj))
    · exact List.mem_append_left _ hj
  queue_nodup := by
    refine List.Nodup.append (List.nodup_cons.mp h.queue_nodup).2 (nodup_fresh _ _) ?_
    intro j hj hfresh
    exact (mem_fresh.mp hfresh).2 (h.queue_seen j (List.mem_cons_of_mem i hj))
  seen_nodup := by
    refine List.Nodup.append (nodup_fresh _ _) h.seen_nodup ?_
    intro j hfresh hj
    exact (mem_fresh.mp hfresh).2 hj
  seen_lt := by
    intro j hj
    rcases List.mem_append.mp hj with hj | hj
    · exact hg i j (mem_fresh.mp hj).1
    · exact h.seen_lt j hj
  enough := by
    have henough := h.enough
    simp only [List.length_cons, List.length_append] at henough ⊢
    omega

theorem explore_sound {j : ℕ} (hj : j ∈ g.explore steps queue seen) :
    ∃ i ∈ queue, g.Reaches i j := by
  induction steps generalizing queue seen with
  | zero => simp [explore] at hj
  | succ steps ih =>
      cases queue with
      | nil => simp [explore] at hj
      | cons i queue =>
          rcases List.mem_cons.mp hj with rfl | hj
          · exact ⟨j, List.mem_cons_self, .refl⟩
          · obtain ⟨k, hk, hkj⟩ := ih hj
            rcases List.mem_append.mp hk with hk | hk
            · exact ⟨k, List.mem_cons_of_mem i hk, hkj⟩
            · exact ⟨i, List.mem_cons_self, .head (mem_fresh.mp hk).1 hkj⟩

theorem mem_explore_of_mem_queue (hg : g.Bounded) (h : g.Searching steps queue seen) {i : ℕ}
    (hi : i ∈ queue) : i ∈ g.explore steps queue seen := by
  induction steps generalizing queue seen with
  | zero => simp [h.queue_eq_nil] at hi
  | succ steps ih =>
      cases queue with
      | nil => simp at hi
      | cons k queue =>
          rcases List.mem_cons.mp hi with rfl | hi
          · exact List.mem_cons_self
          · exact List.mem_cons_of_mem _ (ih (h.step hg) (List.mem_append_left _ hi))

/-- A search passes an edge by only if its end had been seen before. -/
theorem explore_closed (hg : g.Bounded) (h : g.Searching steps queue seen) {i j : ℕ}
    (hi : i ∈ g.explore steps queue seen) (hj : j ∈ g.targets i) :
    j ∈ g.explore steps queue seen ∨ j ∈ seen := by
  induction steps generalizing queue seen with
  | zero => simp [explore] at hi
  | succ steps ih =>
      cases queue with
      | nil => simp [explore] at hi
      | cons k queue =>
          have hstep := h.step hg
          rcases List.mem_cons.mp hi with rfl | hi
          · -- an end that had not been seen joins the queue, and the queue is explored
            by_cases hseen : j ∈ seen
            · exact .inr hseen
            · have hfresh : j ∈ fresh seen (g.targets i) := mem_fresh.mpr ⟨hj, hseen⟩
              exact .inl (List.mem_cons_of_mem _
                (mem_explore_of_mem_queue hg hstep (List.mem_append_right _ hfresh)))
          · rcases ih hstep hi with hj | hj
            · exact .inl (List.mem_cons_of_mem _ hj)
            · rcases List.mem_append.mp hj with hj | hj
              · exact .inl (List.mem_cons_of_mem _
                  (mem_explore_of_mem_queue hg hstep (List.mem_append_right _ hj)))
              · exact .inr hj

theorem mem_queue_of_mem_explore {j : ℕ} (hj : j ∈ g.explore steps queue seen)
    (hseen : j ∈ seen) : j ∈ queue := by
  induction steps generalizing queue seen with
  | zero => simp [explore] at hj
  | succ steps ih =>
      cases queue with
      | nil => simp [explore] at hj
      | cons i queue =>
          rcases List.mem_cons.mp hj with rfl | hj
          · exact List.mem_cons_self
          · rcases List.mem_append.mp (ih hj (List.mem_append_right _ hseen)) with hj | hj
            · exact List.mem_cons_of_mem i hj
            · exact ((mem_fresh.mp hj).2 hseen).elim

theorem nodup_explore (hg : g.Bounded) (h : g.Searching steps queue seen) :
    (g.explore steps queue seen).Nodup := by
  induction steps generalizing queue seen with
  | zero => simp [explore]
  | succ steps ih =>
      cases queue with
      | nil => simp [explore]
      | cons i queue =>
          have hseen : i ∈ seen := h.queue_seen i List.mem_cons_self
          refine List.nodup_cons.mpr ⟨?_, ih (h.step hg)⟩
          intro hi
          have hqueue := mem_queue_of_mem_explore hi (List.mem_append_right _ hseen)
          rcases List.mem_append.mp hqueue with hi | hi
          · exact (List.nodup_cons.mp h.queue_nodup).1 hi
          · exact (mem_fresh.mp hi).2 hseen

theorem searching_start (hseen : seen.Nodup) (hlt : ∀ i ∈ seen, i < g.nodes.size) {i : ℕ}
    (hi : i < g.nodes.size) (hnew : i ∉ seen) :
    g.Searching g.nodes.size [i] (i :: seen) where
  queue_seen := by simp
  queue_nodup := List.nodup_singleton i
  seen_nodup := List.nodup_cons.mpr ⟨hnew, hseen⟩
  seen_lt := by
    intro j hj
    rcases List.mem_cons.mp hj with rfl | hj
    · exact hi
    · exact hlt j hj
  enough := by simp

end Search

/-- A list of nodes that no edge leaves. -/
structure ClosedList (g : FlowGraph) (seen : List ℕ) : Prop where
  nodup : seen.Nodup
  lt : ∀ i ∈ seen, i < g.nodes.size
  closed : ∀ i ∈ seen, ∀ j ∈ g.targets i, j ∈ seen

theorem closedList_nil (g : FlowGraph) : g.ClosedList [] := ⟨List.nodup_nil, by simp, by simp⟩

theorem ClosedList.mem_of_reaches {g : FlowGraph} {seen : List ℕ} (h : g.ClosedList seen)
    {i j : ℕ} (hi : i ∈ seen) (hij : g.Reaches i j) : j ∈ seen := by
  induction hij with
  | refl => exact hi
  | tail _ hstep ih => exact h.closed _ ih _ hstep

/-- A further search extends a closed list to one that holds the new start. -/
theorem ClosedList.append_reachBeyond {g : FlowGraph} (hg : g.Bounded) {seen : List ℕ}
    (h : g.ClosedList seen) {i : ℕ} (hi : i < g.nodes.size) :
    g.ClosedList (seen ++ g.reachBeyond seen i) ∧ i ∈ seen ++ g.reachBeyond seen i ∧
      ∀ j ∈ g.reachBeyond seen i, g.Reaches i j := by
  rw [reachBeyond]
  split_ifs with hseen
  · have hmem : i ∈ seen := by simpa using hseen
    rw [List.append_nil]
    exact ⟨h, hmem, by simp⟩
  · have hnew : i ∉ seen := by simpa using hseen
    have hsearch := searching_start h.nodup h.lt hi hnew
    have hfound : i ∈ g.explore g.nodes.size [i] (i :: seen) :=
      mem_explore_of_mem_queue hg hsearch List.mem_cons_self
    have hsound : ∀ j ∈ g.explore g.nodes.size [i] (i :: seen), g.Reaches i j := by
      intro j hj
      obtain ⟨k, hk, hkj⟩ := explore_sound hj
      obtain rfl : k = i := by simpa using hk
      exact hkj
    refine ⟨⟨?_, ?_, ?_⟩, List.mem_append_right _ hfound, hsound⟩
    · refine List.Nodup.append h.nodup (nodup_explore hg hsearch) ?_
      intro j hj hexp
      have hji := mem_queue_of_mem_explore hexp (List.mem_cons_of_mem i hj)
      obtain rfl : j = i := by simpa using hji
      exact hnew hj
    · intro j hj
      rcases List.mem_append.mp hj with hj | hj
      · exact h.lt j hj
      · rcases Relation.ReflTransGen.cases_tail (hsound j hj) with rfl | ⟨k, -, hkj⟩
        · exact hi
        · exact hg k j hkj
    · intro j hj k hk
      rcases List.mem_append.mp hj with hj | hj
      · exact List.mem_append_left _ (h.closed j hj k hk)
      · rcases explore_closed hg hsearch hj hk with hk | hk
        · exact List.mem_append_right _ hk
        · rcases List.mem_cons.mp hk with rfl | hk
          · exact List.mem_append_right _ hfound
          · exact List.mem_append_left _ hk

section Reach
variable {g : FlowGraph} (hg : g.Bounded)

include hg

theorem closedList_reach {i : ℕ} (hi : i < g.nodes.size) : g.ClosedList (g.reach i) := by
  simpa [reach] using ((closedList_nil g).append_reachBeyond hg hi).1

theorem mem_reach {i j : ℕ} (hi : i < g.nodes.size) : j ∈ g.reach i ↔ g.Reaches i j := by
  have h := (closedList_nil g).append_reachBeyond hg hi
  constructor
  · exact h.2.2 j
  · exact (closedList_reach hg hi).mem_of_reaches (by simpa [reach] using h.2.1)

theorem length_reach_le {i : ℕ} (hi : i < g.nodes.size) :
    (g.reach i).length ≤ g.nodes.size :=
  length_le_of_nodup_of_lt (closedList_reach hg hi).nodup (closedList_reach hg hi).lt

/-- Searches from one start after another keep the list closed. It holds the
starts so far and what they reach. -/
theorem ClosedList.foldl_reachBeyond {starts : List ℕ} (hstarts : ∀ s ∈ starts, s < g.nodes.size)
    {seen : List ℕ} (hseen : g.ClosedList seen) :
    g.ClosedList (starts.foldl (fun seen s => seen ++ g.reachBeyond seen s) seen) ∧
      ∀ j, j ∈ starts.foldl (fun seen s => seen ++ g.reachBeyond seen s) seen ↔
        j ∈ seen ∨ ∃ s ∈ starts, g.Reaches s j := by
  induction starts generalizing seen with
  | nil => exact ⟨hseen, by simp⟩
  | cons s starts ih =>
      obtain ⟨hclosed, hs, hsound⟩ :=
        hseen.append_reachBeyond hg (hstarts s List.mem_cons_self)
      obtain ⟨hrest, hmem⟩ := ih (fun t ht => hstarts t (List.mem_cons_of_mem s ht)) hclosed
      refine ⟨hrest, fun j => ?_⟩
      rw [List.foldl_cons, hmem j]
      constructor
      · rintro (hj | ⟨t, ht, htj⟩)
        · rcases List.mem_append.mp hj with hj | hj
          · exact .inl hj
          · exact .inr ⟨s, List.mem_cons_self, hsound j hj⟩
        · exact .inr ⟨t, List.mem_cons_of_mem s ht, htj⟩
      · rintro (hj | ⟨t, ht, htj⟩)
        · exact .inl (List.mem_append_left _ hj)
        · rcases List.mem_cons.mp ht with rfl | ht
          · exact .inl (hclosed.mem_of_reaches hs htj)
          · exact .inr ⟨t, ht, htj⟩

theorem mem_reachAny {starts : List ℕ} (hstarts : ∀ s ∈ starts, s < g.nodes.size) {j : ℕ} :
    j ∈ g.reachAny starts ↔ ∃ s ∈ starts, g.Reaches s j := by
  simpa [reachAny] using ((closedList_nil g).foldl_reachBeyond hg hstarts).2 j

theorem nodup_reachAny {starts : List ℕ} (hstarts : ∀ s ∈ starts, s < g.nodes.size) :
    (g.reachAny starts).Nodup :=
  ((closedList_nil g).foldl_reachBeyond hg hstarts).1.nodup

end Reach

end FlowGraph

end AffineRelations
