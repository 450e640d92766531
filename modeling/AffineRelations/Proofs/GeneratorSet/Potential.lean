import AffineRelations.Proofs.GeneratorSet.Insertion

/-!
# How often a generator set can grow

A vacant slot counts the width and a taken one the valuation of its lead. Every
insertion that changes a set lowers the sum: the first slot that changes is
taken, or taken over by a lead of lower valuation, and no slot behind it ever
gets a lead of higher valuation. So a set of dimension `n` grows at most
`n * w` times.
-/
namespace AffineRelations.Slots

/-- The sum of the leads' valuations, where a vacant slot counts the width. -/
def potential (r : WordRing) : Slots → ℕ
  | [] => 0
  | none :: slots => r.width + potential r slots
  | some g :: slots => r.valuation g.lead + potential r slots

variable {r : WordRing}

theorem potential_replicate_none (n : ℕ) :
    potential r (List.replicate n none) = n * r.width := by
  induction n with
  | zero => simp [potential]
  | succ n ih =>
      rw [List.replicate_succ, potential, ih, Nat.add_one_mul]
      omega

/-- An insertion that sets the flag lowers the potential, and no other raises
it. -/
theorem Inserts.potential_le {slots slots' : Slots} {v : WordVec} {b : Bool}
    (h : Inserts r slots v b slots') : potential r slots' + b.toNat ≤ potential r slots := by
  have hvalue {n : ℕ} {x : UInt64} {xs : WordVec} (hx : Generator.Fits r n ⟨x, xs⟩) :
      r.valuation x < r.width := r.valuation_lt_iff.mpr hx.value_ne_zero
  induction h with
  | nil => rfl
  | @skip slot _ _ _ _ _ _ ih =>
      cases slot with
      | none => simp only [potential]; omega
      | some g => simp only [potential]; omega
  | settle hx _ _ ih =>
      have hlt := hvalue hx
      simp only [potential, Bool.toNat_true]
      omega
  | front hx =>
      have hlt := hvalue hx
      simp only [potential, Bool.toNat_true]
      omega
  | evict _ _ hlt _ _ ih₁ ih₂ =>
      simp only [potential, Bool.toNat_true]
      omega
  | keep _ _ _ _ ih => simp only [potential]; omega

end AffineRelations.Slots
