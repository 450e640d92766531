import AffineRelations.Expr.Parse
import AffineRelations.Proofs.Expr.Numeral

/-!
# Trees and their tokens

The trees that have a text are those over named variables and the operators
other than assignment, and the assignments of such a tree to a variable. The
reader takes their tokens back to the tree, whatever it held before: a
parenthesis starts a level of its own, so the operators that wait outside are
left alone. Conversely the reader never holds anything but such trees, if the
names it is given are names.
-/
namespace AffineRelations

/-- Texts that are one name. -/
def IsName (x : String) : Prop :=
  ∃ c cs, x.toList = c :: cs ∧ isNameStart c ∧ ∀ d ∈ cs, isNameChar d

namespace Op

/-- The operators that stand inside an expression. -/
def IsInner (op : Op) : Prop := op ∈ known ∧ op ≠ .assign

instance (op : Op) : Decidable op.IsInner := inferInstanceAs (Decidable (_ ∧ _))

theorem isInner_iff {op : Op} :
    op.IsInner ↔ op.isMultiplicative ∨ op.isAdditive ∨ op.isRelational := by
  cases op <;> simp [IsInner, known, isMultiplicative, isAdditive, isRelational]

end Op

namespace Expr

/-- Numbers, variables and operations on them. -/
inductive IsValue : Expr → Prop
  | num (n : Int64) : IsValue (.num n)
  | var {x : String} : IsName x → IsValue (.var x)
  | bin {op : Op} {l r : Expr} : op.IsInner → IsValue l → IsValue r → IsValue (.bin op l r)

inductive IsStatement : Expr → Prop
  | value {e : Expr} : IsValue e → IsStatement e
  | assign {x : String} {e : Expr} : IsName x → IsValue e → IsStatement (.bin .assign (.var x) e)

/-- The tokens of the printed tree. -/
def tokens : Expr → List Token
  | .num n => if n.toInt < 0 then [.op .sub, .int (numeral n)] else [.int (numeral n)]
  | .var x => [.name x]
  | .bin .assign l r => l.tokens ++ .op .assign :: r.tokens
  | .bin op l r => .leftParen :: (l.tokens ++ .op op :: (r.tokens ++ [.rightParen]))
  | .absent => []

theorem tokens_bin {op : Op} (hop : op.IsInner) (l r : Expr) :
    (bin op l r).tokens = .leftParen :: (l.tokens ++ .op op :: (r.tokens ++ [.rightParen])) := by
  rw [tokens]
  exact hop.2

theorem IsValue.negate {e : Expr} (he : e.IsValue) : e.negate.IsValue := by
  have hmul : Op.mul.IsInner := Op.isInner_iff.mpr (.inl rfl)
  cases he with
  | num n => exact .num (-n)
  | var hx => exact .bin hmul (.num _) (.var hx)
  | bin hop hl hr => exact .bin hmul (.num _) (.bin hop hl hr)

end Expr

namespace Reading
variable {st st' : Reading}

/-- Tokens that take the reader from one state to another, positions aside. -/
inductive Reads : Reading → List Token → Reading → Prop
  | nil (st : Reading) : Reads st [] st
  | cons {st mid st' : Reading} {t : Token} {ts : List Token} :
      st.read t = .ok mid → Reads mid ts st' → Reads st (t :: ts) st'

theorem Reads.append {mid : Reading} {ts us : List Token} (h : Reads st ts mid)
    (h' : Reads mid us st') : Reads st (ts ++ us) st' := by
  induction h with
  | nil => exact h'
  | cons hread _ ih => exact .cons hread (ih h')

theorem readAll_eq_ok_iff {items : List (Position × Token)} :
    st.readAll items = .ok st' ↔ Reads st (items.map (·.2)) st' := by
  induction items generalizing st with
  | nil =>
      constructor
      · intro h
        rw [← Except.ok.inj h]
        exact .nil st
      · rintro ⟨⟩
        rfl
  | cons item items ih =>
      rw [readAll, List.map_cons]
      constructor
      · intro h
        cases hread : st.read item.2 with
        | ok mid =>
            rw [hread] at h
            exact .cons hread (ih.mp h)
        | error cause =>
            rw [hread] at h
            cases h
      · rintro (_ | ⟨hread, hrest⟩)
        rw [hread]
        exact ih.mpr hrest

theorem read_of_none (h : st.operand = none) (t : Token) : st.read t = st.readOperand t := by
  rw [read, h]

theorem read_of_some {e : Expr} (h : st.operand = some e) (t : Token) :
    st.read t = st.readOperator e t := by
  rw [read, h]

theorem complete_eq (h : st.level.minus = 0) (e : Expr) :
    st.complete e = { st with operand := some e } := by
  obtain ⟨target, outer, ⟨relation, sum, product, minus⟩, operand⟩ := st
  subst h
  rfl

/-- On a fresh level an operator takes what stands before it as its left side,
on whichever of the levels of the grammar it is. -/
theorem readOp_start (hlevel : st.level = .start) {op : Op} (hop : op.IsInner) (e : Expr) :
    ∃ l : Level, st.readOp e op = .ok (st.await l) ∧ l.minus = 0 ∧
      ∀ e', l.closeRelation e' = .bin op e e' := by
  rw [readOp, hlevel]
  by_cases hmul : op.isMultiplicative
  · rw [if_pos hmul]
    exact ⟨_, rfl, rfl, fun _ => rfl⟩
  · by_cases hadd : op.isAdditive
    · rw [if_neg hmul, if_pos hadd]
      exact ⟨_, rfl, rfl, fun _ => rfl⟩
    · have hrel : op.isRelational := by simpa [hmul, hadd] using Op.isInner_iff.mp hop
      rw [if_neg hmul, if_neg hadd, if_pos ⟨hrel, rfl⟩]
      exact ⟨_, rfl, rfl, fun _ => rfl⟩

/-- The tokens of a tree complete it as the operand to come. -/
theorem reads_tokens {e : Expr} (he : e.IsValue) (st : Reading) (hnone : st.operand = none)
    (hminus : st.level.minus = 0) : Reads st e.tokens { st with operand := some e } := by
  induction he generalizing st with
  | num n =>
      have hint := toInt64?_numeral n
      rw [Expr.tokens]
      split_ifs with hneg
      · -- the sign waits on the level, and is taken back with the digits
        rw [if_pos hneg] at hint
        let signed : Reading := { st with level := { st.level with minus := st.level.minus + 1 } }
        have hsign : st.read (.op .sub) = .ok signed := by rw [read_of_none hnone, readOperand]
        have hdigits : signed.read (.int (numeral n)) =
            .ok { st with operand := some (.num n) } := by
          have hwaits : signed.operand = none := hnone
          rw [read_of_none hwaits, readOperand, hint]
          obtain ⟨target, outer, ⟨relation, sum, product, minus⟩, operand⟩ := st
          subst hminus
          simp [signed, complete, Level.signed, Nat.repeat, Expr.negate]
        exact .cons hsign (.cons hdigits (.nil _))
      · rw [if_neg hneg] at hint
        refine .cons ?_ (.nil _)
        rw [read_of_none hnone, readOperand, hint]
        exact congrArg Except.ok (complete_eq hminus _)
  | @var x hx =>
      refine .cons ?_ (.nil _)
      rw [read_of_none hnone, readOperand]
      exact congrArg Except.ok (complete_eq hminus _)
  | @bin op l r hop hl hr ihl ihr =>
      rw [Expr.tokens_bin hop]
      -- inside the parenthesis nothing waits, so the operator finds only its left operand
      let inside : Reading := { st with outer := st.level :: st.outer, level := .start }
      let left : Reading := { inside with operand := some l }
      have hopen : st.read .leftParen = .ok inside := by
        rw [read_of_none hnone, readOperand]
      have hstart : left.level = .start := rfl
      obtain ⟨level, hread, hfresh, hclose⟩ := readOp_start hstart hop l
      have hop' : left.read (.op op) = .ok (left.await level) := hread
      have hend : ({ left.await level with operand := some r } : Reading).read .rightParen =
          .ok { st with operand := some (.bin op l r) } := by
        rw [← complete_eq hminus, ← hclose r]
        rfl
      exact .cons hopen ((ihl inside hnone rfl).append
        (.cons hop' ((ihr _ rfl hfresh).append (.cons hend (.nil _)))))

theorem reads_statement {e : Expr} (he : e.IsStatement) :
    ∃ st, Reads .start e.tokens st ∧ st.finish = .ok e := by
  cases he with
  | value he => exact ⟨_, reads_tokens he .start rfl rfl, rfl⟩
  | @assign x e hx he =>
      have htarget := reads_tokens (.var hx) .start rfl rfl
      have hvalue := reads_tokens he ⟨some x, [], .start, none⟩ rfl rfl
      exact ⟨_, htarget.append (.cons rfl hvalue), rfl⟩

end Reading

/-- Tokens that are not names, or names indeed. -/
def Token.Proper (t : Token) : Prop := ∀ x, t = .name x → IsName x

namespace Level

/-- What waits for a right operand is an operator behind a tree. -/
def Waiting (w : Option (Op × Expr)) : Prop := ∀ p ∈ w, p.1.IsInner ∧ p.2.IsValue

theorem waiting_none : Waiting none := by
  rintro p ⟨⟩

theorem waiting_some {op : Op} {e : Expr} (hop : op.IsInner) (he : e.IsValue) :
    Waiting (some (op, e)) := by
  rintro p ⟨⟩
  exact ⟨hop, he⟩

theorem Waiting.apply {w : Option (Op × Expr)} (hw : Waiting w) {e : Expr} (he : e.IsValue) :
    (Level.apply w e).IsValue := by
  cases w with
  | none => exact he
  | some p => exact .bin (hw p rfl).1 (hw p rfl).2 he

structure Sound (l : Level) : Prop where
  relation : Waiting l.relation
  sum : Waiting l.sum
  product : Waiting l.product

theorem sound_start : Sound .start := ⟨waiting_none, waiting_none, waiting_none⟩

section Sound
variable {l : Level} {e : Expr}

theorem Sound.closeSum (hl : l.Sound) (he : e.IsValue) : (l.closeSum e).IsValue :=
  hl.sum.apply (hl.product.apply he)

theorem Sound.closeRelation (hl : l.Sound) (he : e.IsValue) : (l.closeRelation e).IsValue :=
  hl.relation.apply (hl.closeSum he)

theorem isValue_signed (l : Level) (he : e.IsValue) : (l.signed e).IsValue := by
  rw [signed]
  induction l.minus with
  | zero => exact he
  | succ n ih => exact ih.negate

end Sound

end Level

namespace Reading
variable {st st' : Reading}

/-- All trees that the reader holds are values. -/
structure Sound (st : Reading) : Prop where
  target : ∀ x ∈ st.target, IsName x
  outer : ∀ l ∈ st.outer, l.Sound
  level : st.level.Sound
  operand : ∀ e ∈ st.operand, e.IsValue

theorem sound_start : Sound .start where
  target := by rintro x ⟨⟩
  outer := by rintro l ⟨⟩
  level := Level.sound_start
  operand := by rintro e ⟨⟩

theorem Sound.complete (h : st.Sound) {e : Expr} (he : e.IsValue) : (st.complete e).Sound where
  target := h.target
  outer := h.outer
  level := ⟨h.level.relation, h.level.sum, h.level.product⟩
  operand := by
    rintro e' ⟨⟩
    exact st.level.isValue_signed he

theorem Sound.await (h : st.Sound) {l : Level} (hl : l.Sound) : (st.await l).Sound where
  target := h.target
  outer := h.outer
  level := hl
  operand := by rintro e ⟨⟩

theorem Sound.readOperand (h : st.Sound) {t : Token} (ht : t.Proper)
    (hread : st.readOperand t = .ok st') : st'.Sound := by
  rw [Reading.readOperand.eq_def] at hread
  split at hread
  · split at hread
    · rw [← Except.ok.inj hread]
      exact h.complete (.num _)
    · cases hread
  · rw [← Except.ok.inj hread]
    exact h.complete (.var (ht _ rfl))
  · rw [← Except.ok.inj hread]
    refine ⟨h.target, ?_, Level.sound_start, h.operand⟩
    exact List.forall_mem_cons.mpr ⟨h.level, h.outer⟩
  · rw [← Except.ok.inj hread]
    exact ⟨h.target, h.outer, ⟨h.level.relation, h.level.sum, h.level.product⟩, h.operand⟩
  · cases hread

theorem Sound.readOp (h : st.Sound) {e : Expr} (he : e.IsValue) {op : Op}
    (hread : st.readOp e op = .ok st') : st'.Sound := by
  rw [Reading.readOp] at hread
  split_ifs at hread with hmul hadd hrel hassign
  · have hop := Op.isInner_iff.mpr (.inl hmul)
    rw [← Except.ok.inj hread]
    exact h.await ⟨h.level.relation, h.level.sum,
      Level.waiting_some hop (h.level.product.apply he)⟩
  · have hop := Op.isInner_iff.mpr (.inr (.inl hadd))
    rw [← Except.ok.inj hread]
    exact h.await ⟨h.level.relation, Level.waiting_some hop (h.level.closeSum he),
      Level.waiting_none⟩
  · have hop := Op.isInner_iff.mpr (.inr (.inr hrel.1))
    rw [← Except.ok.inj hread]
    exact h.await ⟨Level.waiting_some hop (h.level.closeSum he), Level.waiting_none,
      Level.waiting_none⟩
  · have hlhs := h.level.closeRelation he
    split at hread
    · next x hx =>
        rw [hx] at hlhs
        obtain ⟨⟩ | ⟨hname⟩ := hlhs
        rw [← Except.ok.inj hread]
        refine ⟨?_, h.outer, Level.sound_start, by rintro e' ⟨⟩⟩
        rintro y ⟨⟩
        exact hname
    · cases hread

theorem Sound.readOperator (h : st.Sound) {e : Expr} (he : e.IsValue) {t : Token}
    (hread : st.readOperator e t = .ok st') : st'.Sound := by
  rw [Reading.readOperator.eq_def] at hread
  split at hread
  · exact h.readOp he hread
  · split at hread
    · next l outer hout =>
        have houter := List.forall_mem_cons.mp (hout ▸ h.outer)
        rw [← Except.ok.inj hread]
        have hpopped : Sound { st with outer := outer, level := l } :=
          ⟨h.target, houter.2, houter.1, h.operand⟩
        exact hpopped.complete (h.level.closeRelation he)
    · cases hread
  · cases hread

theorem Sound.read (h : st.Sound) {t : Token} (ht : t.Proper) (hread : st.read t = .ok st') :
    st'.Sound := by
  cases hop : st.operand with
  | none =>
      rw [read_of_none hop] at hread
      exact h.readOperand ht hread
  | some e =>
      rw [read_of_some hop] at hread
      exact h.readOperator (h.operand e hop) hread

theorem Sound.reads (h : st.Sound) {ts : List Token} (hts : ∀ t ∈ ts, t.Proper)
    (hreads : Reads st ts st') : st'.Sound := by
  induction hreads with
  | nil => exact h
  | cons hread _ ih =>
      have hts' := List.forall_mem_cons.mp hts
      exact ih (h.read hts'.1 hread) hts'.2

theorem Sound.isStatement (h : st.Sound) {e : Expr} (hfin : st.finish = .ok e) :
    e.IsStatement := by
  rw [finish] at hfin
  split at hfin
  · cases hfin
  · next operand hop =>
      split_ifs at hfin with hout
      have hvalue := h.level.closeRelation (h.operand operand hop)
      rw [← Except.ok.inj hfin]
      split
      · next x hx => exact .assign (h.target x hx) hvalue
      · exact .value hvalue

end Reading

end AffineRelations
