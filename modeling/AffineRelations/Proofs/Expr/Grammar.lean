import AffineRelations.Proofs.Expr.RoundTrip

/-!
# The grammar of statements

`Derives` is the grammar with the tree that each derivation builds, one
constructor for each alternative of a rule. The reader accepts the statements of
the grammar and nothing else.

It finds every statement: the tokens of a phrase complete the operand to come,
whatever waits outside the phrase. And it finds nothing else: what it has read
can always be split into the target, what waits in each open parenthesis and
the operand, and each of these parts derives from the grammar. A tree is thus
known from its tokens, since the reader can end in one state only.
-/
namespace AffineRelations

/-- The nonterminals below the statement. -/
inductive Phrase where
  | relation | sum | product | unary | primary

/-- The tokens of a phrase and its tree. -/
inductive Derives : Phrase → List Token → Expr → Prop
  /-- The value of a literal stays below `2^64`. -/
  | int {cs : List Char} : (Literal.ofText cs).value < 18446744073709551616 →
      Derives .primary [.int cs] (.num (Int64.ofNat (Literal.ofText cs).value))
  | name (x : String) : Derives .primary [.name x] (.var x)
  | paren {ts : List Token} {e : Expr} : Derives .relation ts e →
      Derives .primary (.leftParen :: (ts ++ [.rightParen])) e
  | primary {ts : List Token} {e : Expr} : Derives .primary ts e → Derives .unary ts e
  /-- The sign of a number becomes part of the number. -/
  | minusNum {ts : List Token} {n : Int64} : Derives .unary ts (.num n) →
      Derives .unary (.op .sub :: ts) (.num (-n))
  | minus {ts : List Token} {e : Expr} : Derives .unary ts e → (∀ n, e ≠ .num n) →
      Derives .unary (.op .sub :: ts) (.bin .mul (.num (-1)) e)
  | unary {ts : List Token} {e : Expr} : Derives .unary ts e → Derives .product ts e
  | multiply {ts us : List Token} {op : Op} {l r : Expr} : Derives .product ts l →
      op.isMultiplicative → Derives .unary us r → Derives .product (ts ++ .op op :: us) (.bin op l r)
  | product {ts : List Token} {e : Expr} : Derives .product ts e → Derives .sum ts e
  | add {ts us : List Token} {op : Op} {l r : Expr} : Derives .sum ts l →
      op.isAdditive → Derives .product us r → Derives .sum (ts ++ .op op :: us) (.bin op l r)
  | sum {ts : List Token} {e : Expr} : Derives .sum ts e → Derives .relation ts e
  | compare {ts us : List Token} {op : Op} {l r : Expr} : Derives .sum ts l →
      op.isRelational → Derives .sum us r → Derives .relation (ts ++ .op op :: us) (.bin op l r)

/-- The tokens of a statement and its tree. -/
inductive DerivesStatement : List Token → Expr → Prop
  | bare {ts : List Token} {e : Expr} : Derives .relation ts e → DerivesStatement ts e
  | assign {ts us : List Token} {x : String} {e : Expr} : Derives .relation ts (.var x) →
      Derives .relation us e → DerivesStatement (ts ++ .op .assign :: us) (.bin .assign (.var x) e)

theorem Literal.toInt64?_eq_some_iff {l : Literal} {n : Int64} :
    l.toInt64? = some n ↔ l.value < 18446744073709551616 ∧ Int64.ofNat l.value = n := by
  rw [toInt64?, UInt64.toInt64_ofNat']
  split_ifs with hlt
  · simp [hlt]
  · simp [hlt]

theorem Derives.negate {ts : List Token} {e : Expr} (h : Derives .unary ts e) :
    Derives .unary (.op .sub :: ts) e.negate := by
  cases e with
  | num n => exact h.minusNum
  | var | bin | absent => exact h.minus nofun

theorem Op.not_isMultiplicative_of_isAdditive {op : Op} (h : op.isAdditive) :
    ¬op.isMultiplicative := by
  cases op <;> simp [isAdditive, isMultiplicative] at h ⊢

theorem Op.not_of_isRelational {op : Op} (h : op.isRelational) :
    ¬op.isMultiplicative ∧ ¬op.isAdditive := by
  cases op <;> simp [isRelational, isMultiplicative, isAdditive] at h ⊢

namespace Reading

/-- The reader takes the tokens of a phrase as the operand that it waits for,
if nothing waits on the levels of the grammar that the phrase covers. The last
part of the phrase stays open to operators that bind more tightly. -/
def Takes (ts : List Token) (e : Expr) : Phrase → Prop
  | .primary | .unary => ∀ target outer level,
      Reads ⟨target, outer, level, none⟩ ts
        ⟨target, outer, { level with minus := 0 }, some (level.signed e)⟩
  | .product => ∀ target outer relation sum, ∃ product last,
      Reads ⟨target, outer, ⟨relation, sum, none, 0⟩, none⟩ ts
          ⟨target, outer, ⟨relation, sum, product, 0⟩, some last⟩ ∧
        Level.apply product last = e
  | .sum => ∀ target outer relation, ∃ sum product last,
      Reads ⟨target, outer, ⟨relation, none, none, 0⟩, none⟩ ts
          ⟨target, outer, ⟨relation, sum, product, 0⟩, some last⟩ ∧
        Level.apply sum (Level.apply product last) = e
  | .relation => ∀ target outer, ∃ level last,
      Reads ⟨target, outer, .start, none⟩ ts ⟨target, outer, level, some last⟩ ∧
        level.closeRelation last = e

section Takes
variable {st : Reading} {op : Op} {e : Expr}

theorem readOp_multiplicative (hop : op.isMultiplicative) :
    st.readOp e op =
      .ok (st.await { st.level with product := some (op, st.level.closeProduct e) }) := by
  rw [readOp, if_pos hop]

theorem readOp_additive (hop : op.isAdditive) :
    st.readOp e op =
      .ok (st.await { st.level with sum := some (op, st.level.closeSum e), product := none }) := by
  rw [readOp, if_neg (Op.not_isMultiplicative_of_isAdditive hop), if_pos hop]

theorem readOp_relational (hop : op.isRelational) (hrelation : st.level.relation = none) :
    st.readOp e op = .ok (st.await { st.level with
      relation := some (op, st.level.closeSum e), sum := none, product := none }) := by
  obtain ⟨hmul, hadd⟩ := Op.not_of_isRelational hop
  rw [readOp, if_neg hmul, if_neg hadd, if_pos ⟨hop, hrelation⟩]

theorem readOp_assign {x : String} (htarget : st.target = none) (houter : st.outer = [])
    (hclose : st.level.closeRelation e = .var x) :
    st.readOp e .assign = .ok { st with target := some x, level := .start, operand := none } := by
  rw [readOp, if_neg (by decide), if_neg (by decide), if_neg (by simp [Op.isRelational]),
    if_pos ⟨rfl, houter, htarget⟩, hclose]

/-- A sign that waits changes the operand when it comes. -/
theorem signed_minus (level : Level) (e : Expr) :
    Level.signed { level with minus := level.minus + 1 } e = level.signed e.negate := by
  rw [Level.signed, Level.signed]
  induction level.minus with
  | zero => rfl
  | succ k ih => rw [Nat.repeat, ih, Nat.repeat]

theorem takes_minus {ts : List Token} (h : Takes ts e .unary) :
    Takes (.op .sub :: ts) e.negate .unary := by
  intro target outer level
  rw [← signed_minus]
  exact .cons rfl (h target outer _)

end Takes

end Reading

/-- The reader takes every phrase of the grammar. -/
theorem Derives.takes {phrase : Phrase} {ts : List Token} {e : Expr}
    (h : Derives phrase ts e) : Reading.Takes ts e phrase := by
  induction h with
  | @int cs hlt =>
      intro target outer level
      refine .cons ?_ (.nil _)
      rw [Reading.read, Reading.readOperand, Literal.toInt64?_eq_some_iff.mpr ⟨hlt, rfl⟩]
      rfl
  | name x =>
      intro target outer level
      exact .cons rfl (.nil _)
  | @paren ts e _ ih =>
      intro target outer level
      obtain ⟨inner, last, hreads, rfl⟩ := ih target (level :: outer)
      exact .cons rfl (hreads.append (.cons rfl (.nil _)))
  | primary _ ih => exact ih
  | minusNum _ ih => exact Reading.takes_minus ih
  | @minus ts e _ hnum ih =>
      have hnegate : e.negate = .bin .mul (.num (-1)) e := by
        rw [Expr.negate]
        exact hnum
      rw [← hnegate]
      exact Reading.takes_minus ih
  | @unary ts e _ ih =>
      intro target outer relation sum
      exact ⟨none, e, ih target outer ⟨relation, sum, none, 0⟩, rfl⟩
  | @multiply ts us op l r _ hop _ ihl ihr =>
      intro target outer relation sum
      obtain ⟨product, last, hreads, rfl⟩ := ihl target outer relation sum
      exact ⟨_, r, hreads.append (.cons (Reading.readOp_multiplicative hop)
        (ihr target outer ⟨relation, sum, some (op, Level.apply product last), 0⟩)), rfl⟩
  | @product ts e _ ih =>
      intro target outer relation
      obtain ⟨product, last, hreads, rfl⟩ := ih target outer relation none
      exact ⟨none, product, last, hreads, rfl⟩
  | @add ts us op l r _ hop _ ihl ihr =>
      intro target outer relation
      obtain ⟨sum, product, last, hreads, rfl⟩ := ihl target outer relation
      obtain ⟨product', last', hreads', rfl⟩ :=
        ihr target outer relation (some (op, Level.apply sum (Level.apply product last)))
      exact ⟨_, product', last',
        hreads.append (.cons (Reading.readOp_additive hop) hreads'), rfl⟩
  | @sum ts e _ ih =>
      intro target outer
      obtain ⟨sum, product, last, hreads, rfl⟩ := ih target outer none
      exact ⟨_, last, hreads, rfl⟩
  | @compare ts us op l r _ hop _ ihl ihr =>
      intro target outer
      obtain ⟨sum, product, last, hreads, rfl⟩ := ihl target outer none
      obtain ⟨sum', product', last', hreads', rfl⟩ :=
        ihr target outer (some (op, Level.apply sum (Level.apply product last)))
      exact ⟨_, last', hreads.append (.cons (Reading.readOp_relational hop rfl) hreads'), rfl⟩

/-- Tokens of the grammar take the reader to a state that ends with the tree. -/
theorem DerivesStatement.reads {ts : List Token} {e : Expr} (h : DerivesStatement ts e) :
    ∃ st, Reading.Reads .start ts st ∧ st.finish = .ok e := by
  cases h with
  | bare h =>
      obtain ⟨level, last, hreads, rfl⟩ := h.takes none []
      exact ⟨_, hreads, rfl⟩
  | @assign ts us x e hl hr =>
      obtain ⟨level, last, hreads, hclose⟩ := hl.takes none []
      obtain ⟨level', last', hreads', rfl⟩ := hr.takes (some x) []
      have hassign : Reading.readOp ⟨none, [], level, some last⟩ last .assign =
          .ok ⟨some x, [], .start, none⟩ := Reading.readOp_assign rfl rfl hclose
      exact ⟨_, hreads.append (.cons hassign hreads'), rfl⟩

/-- The tokens of an operator that waits, with its left operand in front. -/
inductive Waits (phrase : Phrase) (kind : Op → Bool) : Option (Op × Expr) → List Token → Prop
  | none : Waits phrase kind none []
  | some {ts : List Token} {op : Op} {e : Expr} : Derives phrase ts e → kind op →
      Waits phrase kind (some (op, e)) (ts ++ [.op op])

/-- An operator that has waited for its right operand, or the operand alone. -/
theorem Waits.apply {left right whole : Phrase} {kind : Op → Bool} {w : Option (Op × Expr)}
    {ts us : List Token} {e : Expr} (hw : Waits left kind w ts) (he : Derives right us e)
    (single : Derives right us e → Derives whole us e)
    (join : ∀ {ts op l}, Derives left ts l → kind op → Derives right us e →
      Derives whole (ts ++ .op op :: us) (.bin op l e)) :
    Derives whole (ts ++ us) (Level.apply w e) := by
  cases hw with
  | none => exact single he
  | some hl hop =>
      rw [List.append_assoc, List.singleton_append]
      exact join hl hop he

section Close
variable {rs ss ps ts : List Token} {l : Level} {e : Expr}

theorem Derives.closeProduct (hp : Waits .product Op.isMultiplicative l.product ps)
    (he : Derives .unary ts e) : Derives .product (ps ++ ts) (l.closeProduct e) :=
  hp.apply he .unary .multiply

theorem Derives.closeSum (hs : Waits .sum Op.isAdditive l.sum ss)
    (hp : Waits .product Op.isMultiplicative l.product ps) (he : Derives .unary ts e) :
    Derives .sum (ss ++ (ps ++ ts)) (l.closeSum e) :=
  hs.apply (he.closeProduct hp) .product .add

theorem Derives.closeRelation (hr : Waits .sum Op.isRelational l.relation rs)
    (hs : Waits .sum Op.isAdditive l.sum ss)
    (hp : Waits .product Op.isMultiplicative l.product ps) (he : Derives .unary ts e) :
    Derives .relation (rs ++ (ss ++ (ps ++ ts))) (l.closeRelation e) :=
  hr.apply (he.closeSum hs hp) .sum .compare

/-- The signs that wait belong to the operand. -/
theorem Derives.signed (he : Derives .unary ts e) (l : Level) :
    Derives .unary (List.replicate l.minus (.op .sub) ++ ts) (l.signed e) := by
  rw [Level.signed]
  induction l.minus with
  | zero => exact he
  | succ k ih => exact ih.negate

end Close

/-- The tokens of what waits on a level. -/
inductive Level.Spells (l : Level) : List Token → Prop
  | mk {rs ss ps : List Token} : Waits .sum Op.isRelational l.relation rs →
      Waits .sum Op.isAdditive l.sum ss → Waits .product Op.isMultiplicative l.product ps →
      Spells l (rs ++ (ss ++ (ps ++ List.replicate l.minus (.op .sub))))

theorem Level.spells_start : Level.start.Spells [] := by
  have hspells : Level.start.Spells ([] ++ ([] ++ ([] ++ []))) := .mk .none .none .none
  simpa using hspells

/-- The tokens up to the innermost parenthesis. -/
inductive Level.Enclose : List Level → List Token → Prop
  | nil : Enclose [] []
  | cons {l : Level} {outer : List Level} {os ls : List Token} : Enclose outer os →
      l.Spells ls → Enclose (l :: outer) (os ++ (ls ++ [.leftParen]))

/-- The tokens of an assignment up to its value. -/
inductive DerivesTarget : Option String → List Token → Prop
  | none : DerivesTarget none []
  | some {x : String} {ts : List Token} : Derives .relation ts (.var x) →
      DerivesTarget (some x) (ts ++ [.op .assign])

/-- The tokens that a state has come from. -/
inductive Reading.Spells : Reading → List Token → Prop
  | waiting {target : Option String} {outer : List Level} {level : Level}
      {ts os ls : List Token} : DerivesTarget target ts → Level.Enclose outer os →
      level.Spells ls → Spells ⟨target, outer, level, none⟩ (ts ++ (os ++ ls))
  | complete {target : Option String} {outer : List Level} {level : Level}
      {ts os ls es : List Token} {e : Expr} : DerivesTarget target ts →
      Level.Enclose outer os → level.minus = 0 → level.Spells ls → Derives .unary es e →
      Spells ⟨target, outer, level, some e⟩ (ts ++ (os ++ (ls ++ es)))

namespace Reading
variable {st st' : Reading} {t : Token} {ts : List Token}

theorem spells_start : Spells .start [] := .waiting .none .nil Level.spells_start

/-- A primary, with the signs in front of it, completes the operand. -/
theorem spells_complete {target : Option String} {outer : List Level} {level : Level}
    {ts os ls es : List Token} {e : Expr} {operand : Option Expr} (htarget : DerivesTarget target ts)
    (houter : Level.Enclose outer os) (hlevel : level.Spells ls) (he : Derives .primary es e) :
    Spells (complete ⟨target, outer, level, operand⟩ e) (ts ++ (os ++ (ls ++ es))) := by
  obtain ⟨hr, hs, hp⟩ := hlevel
  have hfresh : Level.Spells { level with minus := 0 } _ := .mk hr hs hp
  have hspells := Spells.complete htarget houter rfl hfresh (he.primary.signed level)
  simpa [Reading.complete] using hspells

theorem Spells.readOperand (h : st.Spells ts) (hnone : st.operand = none)
    (hread : st.readOperand t = .ok st') : st'.Spells (ts ++ [t]) := by
  cases h with
  | complete => cases hnone
  | @waiting target outer level ts os ls htarget houter hlevel =>
      rw [Reading.readOperand.eq_def] at hread
      split at hread
      · split at hread
        · next n hn =>
            obtain ⟨hlt, rfl⟩ := Literal.toInt64?_eq_some_iff.mp hn
            rw [← Except.ok.inj hread]
            simpa using spells_complete htarget houter hlevel (.int hlt)
        · cases hread
      · rw [← Except.ok.inj hread]
        simpa using spells_complete htarget houter hlevel (.name _)
      · rw [← Except.ok.inj hread]
        simpa using Spells.waiting htarget (houter.cons hlevel) Level.spells_start
      · obtain ⟨hr, hs, hp⟩ := hlevel
        rw [← Except.ok.inj hread]
        have hsigned : Level.Spells { level with minus := level.minus + 1 } _ := .mk hr hs hp
        have hspells := Spells.waiting htarget houter hsigned
        simpa [List.replicate_succ'] using hspells
      · cases hread

theorem Spells.readOp {target : Option String} {outer : List Level} {level : Level}
    {ts os ls es : List Token} {e : Expr} {op : Op} (htarget : DerivesTarget target ts)
    (houter : Level.Enclose outer os) (hminus : level.minus = 0) (hlevel : level.Spells ls)
    (he : Derives .unary es e) (hread : readOp ⟨target, outer, level, some e⟩ e op = .ok st') :
    st'.Spells (ts ++ (os ++ (ls ++ (es ++ [.op op])))) := by
  obtain ⟨hr, hs, hp⟩ := hlevel
  rw [hminus]
  rw [Reading.readOp] at hread
  split_ifs at hread with hmul hadd hrel hassign
  · have hnext : Level.Spells { level with product := some (op, level.closeProduct e) } _ :=
      .mk hr hs (.some (he.closeProduct hp) hmul)
    rw [← Except.ok.inj hread]
    simpa [await, hminus] using Spells.waiting htarget houter hnext
  · have hnext : Level.Spells
        { level with sum := some (op, level.closeSum e), product := none } _ :=
      .mk hr (.some (he.closeSum hs hp) hadd) .none
    rw [← Except.ok.inj hread]
    simpa [await, hminus] using Spells.waiting htarget houter hnext
  · have hnext : Level.Spells { level with
        relation := some (op, level.closeSum e), sum := none, product := none } _ :=
      .mk (.some (he.closeSum hs hp) hrel.1) .none .none
    rw [← Except.ok.inj hread]
    -- no relation was waiting, so no token stands in front of the new one
    rw [show level.relation = none from hrel.2] at hr
    obtain ⟨⟩ := hr
    simpa [await, hminus] using Spells.waiting htarget houter hnext
  · obtain ⟨rfl, rfl, rfl⟩ := hassign
    have hlhs := he.closeRelation hr hs hp
    obtain ⟨⟩ := htarget
    obtain ⟨⟩ := houter
    split at hread
    · next x hx =>
        rw [hx] at hlhs
        rw [← Except.ok.inj hread]
        simpa using Spells.waiting (.some hlhs) .nil Level.spells_start
    · cases hread

theorem Spells.read (h : st.Spells ts) (hread : st.read t = .ok st') : st'.Spells (ts ++ [t]) := by
  cases h with
  | waiting htarget houter hlevel =>
      exact (Spells.waiting htarget houter hlevel).readOperand rfl hread
  | @complete target outer level ts os ls es e htarget houter hminus hlevel he =>
      rw [read_of_some rfl, Reading.readOperator.eq_def] at hread
      split at hread
      · simpa using Spells.readOp htarget houter hminus hlevel he hread
      · obtain ⟨hr, hs, hp⟩ := hlevel
        obtain _ | ⟨houter, hlevel⟩ := houter
        · cases hread
        · rw [← Except.ok.inj hread]
          have hparen := (he.closeRelation hr hs hp).paren
          simpa [hminus] using spells_complete htarget houter hlevel hparen
      · cases hread

theorem Spells.reads {us : List Token} (h : st.Spells ts) (hreads : Reads st us st') :
    st'.Spells (ts ++ us) := by
  induction hreads generalizing ts with
  | nil => rwa [List.append_nil]
  | @cons st mid st' t us hread _ ih =>
      rw [List.append_cons]
      exact ih (h.read hread)

/-- What the reader ends with derives from the grammar. -/
theorem Spells.derivesStatement {e : Expr} (h : st.Spells ts) (hfin : st.finish = .ok e) :
    DerivesStatement ts e := by
  cases h with
  | waiting => cases hfin
  | @complete target outer level ts os ls es last htarget houter hminus hlevel he =>
      obtain ⟨hr, hs, hp⟩ := hlevel
      have hvalue := he.closeRelation hr hs hp
      rw [finish] at hfin
      dsimp only at hfin
      split_ifs at hfin with hout
      obtain rfl := List.isEmpty_iff.mp hout
      obtain ⟨⟩ := houter
      rw [← Except.ok.inj hfin]
      cases htarget with
      | none => simpa [hminus] using DerivesStatement.bare hvalue
      | some hlhs => simpa [hminus] using DerivesStatement.assign hlhs hvalue

theorem Reads.unique {st₁ st₂ : Reading} (h₁ : Reads st ts st₁) (h₂ : Reads st ts st₂) :
    st₁ = st₂ := by
  induction h₁ with
  | nil =>
      cases h₂
      rfl
  | cons hread _ ih =>
      obtain _ | ⟨hread', hrest⟩ := h₂
      obtain rfl := Except.ok.inj (hread.symm.trans hread')
      exact ih hrest

end Reading

/-- The tokens of a source that is scanned to its end without a complaint. -/
def Source.ScansTo (src : Source) (ts : List Token) : Prop :=
  ∃ pos, (TokenList.ofSource src).ending = .eof pos ∧
    (TokenList.ofSource src).items.map (·.2) = ts

theorem Source.ScansTo.unique {src : Source} {ts ts' : List Token} (h : src.ScansTo ts)
    (h' : src.ScansTo ts') : ts = ts' := by
  obtain ⟨-, -, rfl⟩ := h
  obtain ⟨-, -, rfl⟩ := h'
  rfl

theorem SyntaxError.exists_message_eq (err : SyntaxError) :
    ∃ rest, err.message = "expr: syntax error" ++ rest := by
  have happend {whole front : String} (a b c d : String) (h : front ++ a = whole) :
      ∃ rest, whole ++ b ++ c ++ d = front ++ rest :=
    ⟨a ++ b ++ c ++ d, by simp only [← h, String.append_assoc]⟩
  exact happend " at <input>" _ _ _ (by decide)

namespace Expr

theorem ofSource_eq_ok_iff {src : Source} {e : Expr} :
    ofSource src = .ok e ↔ ∃ ts, src.ScansTo ts ∧ DerivesStatement ts e := by
  rw [ofSource, ofTokens]
  constructor
  · intro h
    split at h
    · cases h
    · next st hread =>
        have hspells := Reading.spells_start.reads (Reading.readAll_eq_ok_iff.mp hread)
        split at h
        · cases h
        · next pos hending =>
            split at h
            · next e' hfin =>
                rw [← Except.ok.inj h]
                exact ⟨_, ⟨pos, hending, rfl⟩, hspells.derivesStatement hfin⟩
            · cases h
  · rintro ⟨ts, ⟨pos, hending, rfl⟩, hderives⟩
    obtain ⟨st, hreads, hfin⟩ := hderives.reads
    simp only [Reading.readAll_eq_ok_iff.mpr hreads, hending, hfin]

/-- The parser accepts exactly the grammar. A source that can be scanned to its
end is parsed to a tree if its tokens derive from the grammar with this tree.
The grammar allows one tree at most, and no operand is absent in it. For every
other source the parser answers with a syntax error. -/
theorem parse_accepts_grammar (bytes : List UInt8) :
    (∀ ts, (Source.ofBytes bytes).ScansTo ts →
        ∀ e, parseBytes bytes = .ok e ↔ DerivesStatement ts e) ∧
      (∀ ts e e', DerivesStatement ts e → DerivesStatement ts e' → e = e') ∧
      (∀ e, parseBytes bytes = .ok e → e.IsStatement) ∧
      ((¬∃ ts e, (Source.ofBytes bytes).ScansTo ts ∧ DerivesStatement ts e) →
        ∃ err, parseBytes bytes = .error err ∧
          ∃ rest, err.message = "expr: syntax error" ++ rest) ∧
      ∀ s : String, parse s = parseBytes s.toUTF8.data.toList := by
  refine ⟨?_, ?_, fun e => isStatement_of_ofSource, ?_, fun s => (parseBytes_toUTF8 s).symm⟩
  · intro ts hscan e
    rw [parseBytes, ofSource_eq_ok_iff]
    constructor
    · rintro ⟨ts', hscan', hderives⟩
      rwa [hscan.unique hscan']
    · exact fun hderives => ⟨ts, hscan, hderives⟩
  · intro ts e e' h h'
    obtain ⟨st, hreads, hfin⟩ := h.reads
    obtain ⟨st', hreads', hfin'⟩ := h'.reads
    obtain rfl := hreads.unique hreads'
    exact Except.ok.inj (hfin.symm.trans hfin')
  · intro hno
    cases hparse : parseBytes bytes with
    | error err => exact ⟨err, rfl, err.exists_message_eq⟩
    | ok e =>
        obtain ⟨ts, h⟩ := ofSource_eq_ok_iff.mp hparse
        exact (hno ⟨ts, e, h⟩).elim

/-- A target in parentheses, a sign that binds more tightly than `%`, and a
literal beyond the greatest number; and a source that the scanner refuses. -/
theorem parse_accepts_signs :
    parse "(x) = -(y) % 0xff - 18446744073709551615" =
        .ok (.bin .assign (.var "x") (.bin .sub
          (.bin .mod (.bin .mul (.num (-1)) (.var "y")) (.num 255)) (.num (-1)))) ∧
      ∃ err, parse "x = 1__0" = .error err ∧
        ∃ rest, err.message = "expr: syntax error" ++ rest := by
  have hname (x : String) : Derives .unary [.name x] (.var x) := .primary (.name x)
  have hnum {cs : List Char} {n : Int64} (hlt : (Literal.ofText cs).value < 18446744073709551616)
      (hn : Int64.ofNat (Literal.ofText cs).value = n) : Derives .unary [.int cs] (.num n) :=
    hn ▸ .primary (.int hlt)
  have hparen {ts : List Token} {e : Expr} (h : Derives .unary ts e) :
      Derives .unary (.leftParen :: (ts ++ [.rightParen])) e :=
    .primary (.paren (.sum (.product (.unary h))))
  have hscan : (Source.ofBytes
      "(x) = -(y) % 0xff - 18446744073709551615".toUTF8.data.toList).ScansTo
        ([.leftParen, .name "x", .rightParen] ++ .op .assign ::
          (([.op .sub, .leftParen, .name "y", .rightParen] ++ .op .mod ::
            [.int "0xff".toList]) ++ .op .sub :: [.int "18446744073709551615".toList])) :=
    ⟨some ⟨1, 41⟩, by decide +kernel, by decide +kernel⟩
  have hsource := parse_accepts_grammar
    "(x) = -(y) % 0xff - 18446744073709551615".toUTF8.data.toList
  have hrefused := parse_accepts_grammar "x = 1__0".toUTF8.data.toList
  rw [hsource.2.2.2.2, hsource.2.2.2.2]
  constructor
  · rw [hsource.1 _ hscan]
    refine .assign (.sum (.product (.unary (hparen (hname "x"))))) (.sum (.add (.product
      (.multiply (.unary ((hparen (hname "y")).minus nofun)) rfl (hnum ?_ ?_))) rfl
      (.unary (hnum ?_ ?_))))
    · decide +kernel
    · decide +kernel
    · decide +kernel
    · decide +kernel
  · refine hrefused.2.2.2.1 ?_
    rintro ⟨ts, e, ⟨pos, hending, -⟩, -⟩
    have hbroken : (TokenList.ofSource (Source.ofBytes "x = 1__0".toUTF8.data.toList)).ending =
        .broken ⟨some ⟨1, 9⟩, .literal .misplacedSeparator⟩ := by decide +kernel
    cases hbroken.symm.trans hending

end Expr

end AffineRelations
