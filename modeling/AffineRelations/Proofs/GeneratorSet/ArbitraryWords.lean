import AffineRelations.Proofs.GeneratorSet.SortedVectors

/-!
# Sets of arbitrary words

A set may be offered words that are not reduced. Every run of insertions then
still ends, and it stores what the same run on sorted lists stores, which
would stop with a fault if a lead did not move on or a column was taken twice. So
the stored vectors have their leads in different columns, in ascending order, and
there are no more of them than columns.
-/
namespace AffineRelations

/-- Inserts vectors one after the other and collects the flags. -/
def insertAll {σ ε : Type} (insert : σ → WordVec → Except ε (Bool × σ)) :
    σ → List WordVec → Except ε (List Bool × σ)
  | s, [] => .ok ([], s)
  | s, v :: vs => do
    let after ← insert s v
    let rest ← insertAll insert after.2 vs
    return (after.1 :: rest.1, rest.2)

namespace GeneratorSet
variable {r : WordRing} {n : ℕ}

/-- The stored vectors have leads, which are those of their slots, and the leads
ascend. -/
structure Canonical (s : GeneratorSet) : Prop where
  stored : ∀ v ∈ s.vectors, v.length = s.dim ∧
    ∃ (j : ℕ) (g : Generator), s.slots[j]? = some (some g) ∧
      v.leadIndex? = some j ∧ v.leadEntry = g.lead ∧
      (∀ i < j, v[i]? = some 0) ∧ v[j]? = some g.lead ∧ g.lead ≠ 0
  ascending : s.vectors.Pairwise fun u v => ∃ i ∈ u.leadIndex?, ∃ j ∈ v.leadIndex?, i < j
  size_le : s.size ≤ s.dim

theorem canonical_of_aligned {s : GeneratorSet} (h : s.slots.Aligned) : s.Canonical := by
  refine ⟨fun v hv => ?_, h.pairwise_vectorsFrom 0, s.size_le_dim⟩
  obtain ⟨j, g, hj, rfl⟩ := Slots.mem_vectorsFrom.mp hv
  rw [Nat.zero_add]
  obtain ⟨hlead, hlen⟩ := h.getElem? hj
  refine ⟨?_, j, g, hj, Generator.leadIndex?_vectorAt hlead j,
    Generator.leadEntry_vectorAt hlead j, fun i hi => ?_, ?_, hlead⟩
  · rw [Generator.vectorAt, List.length_append, List.length_replicate, List.length_cons, dim]
    omega
  · rw [Generator.vectorAt, List.getElem?_append_left (by simpa using hi)]
    simp [hi]
  · simp [Generator.vectorAt]

/-- One insertion of words of any size, with what it does to the sorted list. -/
theorem insert_eq_sorted {s : GeneratorSet} (hring : s.ring = r) (hdim : s.dim = n)
    (h : s.slots.Aligned) {v : WordVec} (hlen : v.length = n) :
    ∃ (b : Bool) (s' : GeneratorSet), s.insert v = .ok (b, s') ∧
      SortedVectors.insert r n s.vectors v = .ok (b, s'.vectors) ∧
      s'.ring = r ∧ s'.dim = n ∧ s'.slots.Aligned := by
  subst hring hdim
  obtain ⟨haligned, hlength⟩ := h.insert (r := s.ring) hlen
  refine ⟨_, _, if_pos hlen, ?_, rfl, hlength, haligned⟩
  exact SortedVectors.insert_append h hlen le_rfl (SortedVectors.endsBefore_nil 0)

theorem contains_eq_sorted {s : GeneratorSet} (hring : s.ring = r) (hdim : s.dim = n)
    (h : s.slots.Aligned) {v : WordVec} (hlen : v.length = n) :
    SortedVectors.contains r n s.vectors v = .ok (s.contains v) := by
  subst hring hdim
  rw [contains, beq_iff_eq.mpr hlen, Bool.true_and]
  exact SortedVectors.contains_append h hlen le_rfl (SortedVectors.endsBefore_nil 0)

theorem insertAll_eq_sorted {s : GeneratorSet} (hring : s.ring = r) (hdim : s.dim = n)
    (h : s.slots.Aligned) {vs : List WordVec} (hlen : ∀ v ∈ vs, v.length = n) :
    ∃ (flags : List Bool) (s' : GeneratorSet),
      insertAll GeneratorSet.insert s vs = .ok (flags, s') ∧
      insertAll (SortedVectors.insert r n) s.vectors vs = .ok (flags, s'.vectors) ∧
      s'.ring = r ∧ s'.dim = n ∧ s'.slots.Aligned := by
  induction vs generalizing s with
  | nil => exact ⟨[], s, rfl, rfl, hring, hdim, h⟩
  | cons v vs ih =>
      obtain ⟨hv, hvs⟩ := List.forall_mem_cons.mp hlen
      obtain ⟨b, t, ht, hsorted, hring', hdim', h'⟩ := insert_eq_sorted hring hdim h hv
      obtain ⟨flags, s', hs', hsorted', hlast⟩ := ih hring' hdim' h' hvs
      refine ⟨b :: flags, s', ?_, ?_, hlast⟩
      · simp only [insertAll, ht, bind, Except.bind, hs']
        rfl
      · simp only [insertAll, hsorted, bind, Except.bind, hsorted']
        rfl

/-- Vectors of arbitrary words can be inserted in any number. The sorted lists go
through the same insertions and never stop with a fault, so every call moves on
to the right and no column is taken twice. What is stored is canonical, and
membership tests end with the same answer. -/
theorem insertAll_canonical (r : WordRing) (n : ℕ) {vs : List WordVec}
    (hlen : ∀ v ∈ vs, v.length = n) :
    ∃ (flags : List Bool) (s : GeneratorSet),
      insertAll GeneratorSet.insert (empty r n) vs = .ok (flags, s) ∧
      insertAll (SortedVectors.insert r n) [] vs = .ok (flags, s.vectors) ∧
      s.dim = n ∧ s.Canonical ∧
      ∀ v : WordVec, if v.length = n
        then SortedVectors.contains r n s.vectors v = .ok (s.contains v)
        else s.contains v = false := by
  have hempty : (empty r n).vectors = [] :=
    Slots.vectorsFrom_eq_nil_iff.mpr (by simp [empty])
  obtain ⟨flags, s, hs, hsorted, hring, hdim, h⟩ :=
    insertAll_eq_sorted (s := empty r n) rfl List.length_replicate (Slots.aligned_replicate_none n)
      hlen
  rw [hempty] at hsorted
  refine ⟨flags, s, hs, hsorted, hdim, canonical_of_aligned h, fun v => ?_⟩
  split_ifs with hv
  · exact contains_eq_sorted hring hdim h hv
  · rw [contains, beq_eq_false_iff_ne.mpr (hdim.symm ▸ hv), Bool.false_and]

/-- Modulo 4, the leads 4 and 8 denote zero. The first is stored and makes the
second vanish with all that stands behind it; the lead 6 evicts it. -/
theorem insertAll_canonical_of_vanishing : ∃ (r : WordRing) (s : GeneratorSet), r.width = 2 ∧
    (∀ v ∈ ([[4, 1, 2], [8, 3, 1], [6, 8, 3]] : List WordVec), v.length = 3) ∧
      insertAll GeneratorSet.insert (empty r 3) [[4, 1, 2], [8, 3, 1], [6, 8, 3]] =
        .ok ([true, false, true], s) ∧
      s.vectors = [[6, 8, 3], [0, 1, 2], [0, 0, 2]] ∧
      insertAll (SortedVectors.insert r 3) [] [[4, 1, 2], [8, 3, 1], [6, 8, 3]] =
        .ok ([true, false, true], s.vectors) ∧
      s.Canonical ∧
      SortedVectors.contains r 3 s.vectors [2, 5, 1] = .ok (s.contains [2, 5, 1]) := by
  let r := WordRing.ofBits 2 (by decide) (by decide)
  have hrun : insertAll GeneratorSet.insert (empty r 3) [[4, 1, 2], [8, 3, 1], [6, 8, 3]] =
      .ok ([true, false, true], ⟨r, [some ⟨6, [8, 3]⟩, some ⟨1, [2]⟩, some ⟨2, []⟩]⟩) := by
    decide +kernel
  have hlen : ∀ v ∈ ([[4, 1, 2], [8, 3, 1], [6, 8, 3]] : List WordVec), v.length = 3 := by decide
  obtain ⟨flags, s, hs, hsorted, -, hcanonical, hcontains⟩ := insertAll_canonical r 3 hlen
  cases hrun.symm.trans hs
  exact ⟨r, _, rfl, hlen, hrun, rfl, hsorted, hcanonical, hcontains [2, 5, 1]⟩

end GeneratorSet

end AffineRelations
