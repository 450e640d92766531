import AffineRelations.Proofs.Expr.Reading

/-!
# Scanning what was printed

A text in front of a rest is scanned to tokens if its characters, wherever they
stand, give these tokens and then the tokens of the rest. Texts in a row give
their tokens in a row. A name or a number needs a rest that does not go on with
it: in a printed tree a blank, a parenthesis or the end follows. An operator is
printed between blanks, so that no `=` joins it that is not its own.
-/
namespace AffineRelations

section Chars
variable {c : Char}

/-- Characters that neither end a source nor are dropped from its front. -/
def isPlain (c : Char) : Bool := c.toNat != 0 && c.toNat != 0xFEFF

/-- Characters that are no blank and no part of a name or number. -/
def isSign (c : Char) : Bool :=
  !isBlank c && !isNameStart c && !isDecimalChar c && isPlain c

theorem isPlain_iff : isPlain c ↔ c.toNat ≠ 0 ∧ c.toNat ≠ 0xFEFF := by
  simp [isPlain]

theorem eq_of_isBlank (hc : isBlank c) : c = ' ' ∨ c = '\t' ∨ c = '\n' ∨ c = '\r' := by
  simpa [isBlank, or_assoc] using hc

theorem isBlank_eq_false_of_lt (hc : 0x20 < c.toNat) : isBlank c = false := by
  rw [Bool.eq_false_iff]
  intro hblank
  rcases eq_of_isBlank hblank with rfl | rfl | rfl | rfl <;> exact absurd hc (by decide)

theorem isPlain_of_isBlank (hc : isBlank c) : isPlain c := by
  rcases eq_of_isBlank hc with rfl | rfl | rfl | rfl <;> rfl

theorem isLetter_eq_false_of_lt (hc : c.toNat < 0x41) : Text.isLetter c = false :=
  if_pos hc

theorem isDecimalDigit_eq_false_of_lt (hc : c.toNat < 0x30) : Text.isDecimalDigit c = false :=
  if_pos hc

theorem le_toNat_of_isNameStart (hc : isNameStart c) : 0x41 ≤ c.toNat := by
  by_contra hlt
  rw [isNameStart, isLetter_eq_false_of_lt (by omega), Bool.or_false, beq_iff_eq] at hc
  subst hc
  exact hlt (by decide)

theorem le_toNat_of_isNameChar (hc : isNameChar c) : 0x30 ≤ c.toNat := by
  by_contra hlt
  rw [isNameChar, isDecimalDigit_eq_false_of_lt (by omega), Bool.or_false] at hc
  have := le_toNat_of_isNameStart hc
  omega

theorem isPlain_of_isNameChar (hc : isNameChar c) : isPlain c := by
  have hlow := le_toNat_of_isNameChar hc
  refine isPlain_iff.mpr ⟨by omega, ?_⟩
  intro hmark
  obtain rfl : c = Char.ofNat 0xFEFF := by rw [← hmark, Char.ofNat_toNat]
  exact absurd hc (by decide +kernel)

theorem toNat_of_isDecimalChar (hc : isDecimalChar c) : 0x30 ≤ c.toNat ∧ c.toNat ≤ 0x39 := by
  simp only [isDecimalChar, Bool.and_eq_true, decide_eq_true_eq] at hc
  exact hc

theorem isNameStart_of_isDecimalChar (hc : isDecimalChar c) : isNameStart c = false := by
  rw [Bool.eq_false_iff]
  intro hstart
  have hlow := le_toNat_of_isNameStart hstart
  have hhigh := (toNat_of_isDecimalChar hc).2
  omega

theorem isPlain_of_isDecimalChar (hc : isDecimalChar c) : isPlain c := by
  have hrange := toNat_of_isDecimalChar hc
  exact isPlain_iff.mpr ⟨by omega, by omega⟩

end Chars

/-- The text is scanned to the tokens if the rest follows it. -/
structure Scans (text : List Char) (ts : List Token) (rest : List Char) : Prop where
  plain : ∀ c ∈ text, isPlain c
  scan_eq : ∀ (pos : Option Position) (cs tail : List (Position × Char)),
    cs.map (·.2) = text → tail.map (·.2) = rest →
      ∃ items : List (Position × Token), items.map (·.2) = ts ∧
        TokenList.scan (.eof pos) (cs ++ tail) =
          { TokenList.scan (.eof pos) tail with
            items := items ++ (TokenList.scan (.eof pos) tail).items }

section Scans
variable {text text' rest : List Char} {ts ts' : List Token} {c : Char} {t : Token}

theorem Scans.append (h : Scans text ts (text' ++ rest)) (h' : Scans text' ts' rest) :
    Scans (text ++ text') (ts ++ ts') rest := by
  refine ⟨List.forall_mem_append.mpr ⟨h.plain, h'.plain⟩, ?_⟩
  intro pos cs tail hcs htail
  obtain ⟨front, back, rfl, hfront, hback⟩ := List.map_eq_append_iff.mp hcs
  have hrest : (back ++ tail).map (·.2) = text' ++ rest := by
    rw [List.map_append, hback, htail]
  obtain ⟨items, hitems, hscan⟩ := h.scan_eq pos front (back ++ tail) hfront hrest
  obtain ⟨items', hitems', hscan'⟩ := h'.scan_eq pos back tail hback htail
  refine ⟨items ++ items', by rw [List.map_append, hitems, hitems'], ?_⟩
  rw [List.append_assoc, hscan, hscan', List.append_assoc]

theorem scans_blank (hc : isBlank c) (rest : List Char) : Scans [c] [] rest := by
  refine ⟨List.forall_mem_singleton.mpr (isPlain_of_isBlank hc), ?_⟩
  intro pos cs tail hcs _
  obtain ⟨⟨p, d⟩, rfl, rfl⟩ := List.map_eq_singleton_iff.mp hcs
  refine ⟨[], rfl, ?_⟩
  rw [List.singleton_append, TokenList.scan, if_pos hc, List.nil_append]

theorem Scans.after_blank (h : Scans text ts rest) : Scans (' ' :: text) ts rest :=
  (scans_blank rfl (text ++ rest)).append h

theorem scans_token (hplain : ∀ d ∈ c :: text, isPlain d) (hc : isBlank c = false)
    (htake : ∀ cs tail : List (Position × Char), cs.map (·.2) = text → tail.map (·.2) = rest →
      takeToken c (cs ++ tail) = (t, tail))
    (hfault : t.fault? = none) : Scans (c :: text) [t] rest := by
  refine ⟨hplain, ?_⟩
  intro pos cs tail hcs htail
  obtain ⟨⟨p, d⟩, more, rfl, rfl, hmore⟩ := List.map_eq_cons_iff.mp hcs
  have hfront : takeToken d (more ++ tail) = (t, tail) := htake more tail hmore htail
  refine ⟨[(p, t)], rfl, ?_⟩
  rw [List.cons_append, TokenList.scan, if_neg (by simp [hc])]
  simp only [hfront, hfault, List.singleton_append]

/-- Whether `=` follows is all that the token of a sign depends on. -/
theorem takeToken_sign (hc : isSign c) {cs : List (Position × Char)} {equals : Bool}
    (hequals : (cs.map (·.2)).head?.any (· == '=') = equals) :
    takeToken c cs =
      ((signToken c equals).1, if (signToken c equals).2 then cs.tail else cs) := by
  have hhead : (cs.head?.any fun d => d.2 == '=') = equals := by
    rw [← hequals]
    cases cs <;> rfl
  simp only [isSign, Bool.and_eq_true, Bool.not_eq_true'] at hc
  rw [takeToken, if_neg (by simp [hc.1.1.2]), if_neg (by simp [hc.1.2]), hhead]

theorem isPlain_and_isBlank_of_isSign (hc : isSign c) : isPlain c ∧ isBlank c = false := by
  simp only [isSign, Bool.and_eq_true, Bool.not_eq_true'] at hc
  exact ⟨hc.2, hc.1.1.1⟩

theorem scans_sign (hc : isSign c)
    (hsign : signToken c (rest.head?.any (· == '=')) = (t, false)) (hfault : t.fault? = none) :
    Scans [c] [t] rest := by
  obtain ⟨hplain, hblank⟩ := isPlain_and_isBlank_of_isSign hc
  refine scans_token (List.forall_mem_singleton.mpr hplain) hblank ?_ hfault
  intro cs tail hcs htail
  obtain rfl := List.map_eq_nil_iff.mp hcs
  rw [List.nil_append, takeToken_sign hc rfl, htail, hsign]
  rfl

theorem scans_joined (hc : isSign c) (hsign : signToken c true = (t, true))
    (hfault : t.fault? = none) (rest : List Char) : Scans [c, '='] [t] rest := by
  obtain ⟨hplain, hblank⟩ := isPlain_and_isBlank_of_isSign hc
  refine scans_token ?_ hblank ?_ hfault
  · exact List.forall_mem_cons.mpr ⟨hplain, List.forall_mem_singleton.mpr rfl⟩
  · intro cs tail hcs _
    obtain ⟨⟨p, d⟩, rfl, rfl⟩ := List.map_eq_singleton_iff.mp hcs
    rw [takeToken_sign hc rfl]
    simp [hsign]

/-- The text of an operator, in front of a blank. -/
theorem scans_op {op : Op} (hop : op ∈ Op.known) (rest : List Char) :
    Scans op.text.toList [.op op] (' ' :: rest) := by
  cases op with
  | lessEq | greaterEq | equal | notEqual => exact scans_joined (by decide) rfl rfl _
  | other code => simp [Op.known] at hop
  | _ => exact scans_sign (by decide) rfl rfl

theorem takeChars_append {p : Char → Bool} {cs tail : List (Position × Char)}
    (hcs : ∀ c ∈ cs.map (·.2), p c) (htail : ∀ c ∈ (tail.map (·.2)).head?, p c = false) :
    takeChars p (cs ++ tail) = (cs.map (·.2), tail) := by
  have hall : ∀ c ∈ cs, p c.2 := fun c hc => hcs c.2 (List.mem_map_of_mem hc)
  have hstop : tail.takeWhile (fun c => p c.2) = [] ∧ tail.dropWhile (fun c => p c.2) = tail := by
    cases tail with
    | nil => exact ⟨rfl, rfl⟩
    | cons d tail =>
        have hd : p d.2 = false := htail d.2 rfl
        simp [hd]
  rw [takeChars, List.takeWhile_append_of_pos hall, List.dropWhile_append_of_pos hall, hstop.1,
    hstop.2, List.append_nil]

end Scans

section Closed
variable {rest : List Char}

/-- What may follow a tree: a blank, a closing parenthesis, or nothing. -/
def Closed (rest : List Char) : Prop := ∀ c ∈ rest.head?, c = ' ' ∨ c = ')'

theorem closed_nil : Closed [] := by
  rintro c ⟨⟩

theorem closed_blank (rest : List Char) : Closed (' ' :: rest) := by
  rintro c ⟨⟩
  exact .inl rfl

theorem closed_paren (rest : List Char) : Closed (')' :: rest) := by
  rintro c ⟨⟩
  exact .inr rfl

theorem Closed.stops (h : Closed rest) {p : Char → Bool} (hblank : p ' ' = false)
    (hparen : p ')' = false) : ∀ c ∈ rest.head?, p c = false := by
  intro c hc
  rcases h c hc with rfl | rfl
  · exact hblank
  · exact hparen

theorem scans_name {x : String} (hx : IsName x) (h : Closed rest) :
    Scans x.toList [.name x] rest := by
  obtain ⟨c, text, htext, hc, hchars⟩ := hx
  have hlow := le_toNat_of_isNameStart hc
  have hplain : ∀ d ∈ c :: text, isPlain d := by
    intro d hd
    rcases List.mem_cons.mp hd with rfl | hd
    · exact isPlain_of_isNameChar (by simp [isNameChar, hc])
    · exact isPlain_of_isNameChar (hchars d hd)
  rw [htext]
  refine scans_token hplain (isBlank_eq_false_of_lt (by omega)) ?_ rfl
  intro cs tail hcs htail
  have hmore : takeChars isNameChar (cs ++ tail) = (text, tail) := by
    rw [takeChars_append (hcs ▸ hchars) (htail ▸ h.stops (by decide) (by decide)), hcs]
  rw [takeToken, if_pos hc, hmore]
  simp only
  rw [← htext, String.ofList_toList]

/-- The digits behind the first are all taken. A lone zero takes nothing. -/
theorem takeLiteral_append {c : Char} {cs tail : List (Position × Char)}
    (hcs : ∀ d ∈ cs.map (·.2), isDecimalChar d) (hzero : c = '0' → cs = [])
    (h : Closed (tail.map (·.2))) : takeLiteral c (cs ++ tail) = (cs.map (·.2), tail) := by
  have hdecimals : takeChars (fun d => isDecimalChar d || d == '_') (cs ++ tail) =
      (cs.map (·.2), tail) :=
    takeChars_append (fun d hd => by simp [hcs d hd]) (h.stops (by decide) (by decide))
  rw [takeLiteral.eq_def]
  split
  · next d more heq =>
      split_ifs with hc
      · -- behind a zero stands the rest, which no prefix starts
        have hd : d = ' ' ∨ d = ')' := by
          rw [hzero hc, List.nil_append] at heq
          exact h d (by rw [heq]; rfl)
        have hradix : Radix.ofPrefix? d = none := by
          rcases hd with rfl | rfl <;> rfl
        rw [hradix]
        exact hdecimals
      · exact hdecimals
  · next heq =>
      obtain ⟨rfl, rfl⟩ := List.append_eq_nil_iff.mp heq
      rfl

theorem scans_numeral (n : Int64) (h : Closed rest) :
    Scans (numeral n) [.int (numeral n)] rest := by
  have hdecimal : ∀ d ∈ numeral n, isDecimalChar d := fun _ => isDecimalChar_of_mem_toDigits
  have hfault : Token.fault? (.int (numeral n)) = none := Literal.fault?_toDigits _
  obtain ⟨c, text, htext⟩ := List.exists_cons_of_ne_nil (l := numeral n) Nat.toDigits_ne_nil
  have hzero : c = '0' → text = [] := by
    rintro rfl
    exact toDigits_eq_zero_cons htext
  rw [htext] at hdecimal hfault ⊢
  have hc := hdecimal c List.mem_cons_self
  have hlow := (toNat_of_isDecimalChar hc).1
  refine scans_token (fun d hd => isPlain_of_isDecimalChar (hdecimal d hd))
    (isBlank_eq_false_of_lt (by omega)) ?_ hfault
  intro cs tail hcs htail
  have hmore : takeLiteral c (cs ++ tail) = (text, tail) := by
    rw [takeLiteral_append ?_ ?_ (htail ▸ h), hcs]
    · intro d hd
      exact hdecimal d (List.mem_cons_of_mem c (hcs ▸ hd))
    · intro hc0
      exact List.map_eq_nil_iff.mp (hcs.trans (hzero hc0))
  rw [takeToken, if_neg (by simp [isNameStart_of_isDecimalChar hc]), if_pos hc, hmore]

end Closed

namespace Expr

theorem toList_render_bin {op : Op} (hop : op.IsInner) (l r : Expr) :
    (bin op l r).render.toList = '(' :: (l.render.toList ++
      ' ' :: (op.text.toList ++ ' ' :: (r.render.toList ++ [')']))) := by
  rw [render]
  · simp
  · exact hop.2

/-- A printed tree is scanned to its tokens. -/
theorem IsValue.scans {e : Expr} (he : e.IsValue) {rest : List Char} (h : Closed rest) :
    Scans e.render.toList e.tokens rest := by
  induction he generalizing rest with
  | num n =>
      rw [render, toList_toString_toInt, tokens]
      split_ifs
      · have hsign : Scans ['-'] [.op .sub] (numeral n ++ rest) := scans_sign (by decide) rfl rfl
        exact hsign.append (scans_numeral n h)
      · exact scans_numeral n h
  | var hx => exact scans_name hx h
  | @bin op l r hop _ _ ihl ihr =>
      rw [toList_render_bin hop, tokens_bin hop]
      have hclose : Scans [')'] [.rightParen] rest := scans_sign (by decide) rfl rfl
      have hright := (ihr (closed_paren rest)).append hclose
      have hoperator := (scans_op hop.1 _).append hright.after_blank
      have hleft := (ihl (closed_blank _)).append hoperator.after_blank
      exact (scans_sign (c := '(') (by decide) rfl rfl).append hleft

theorem IsStatement.scans {e : Expr} (he : e.IsStatement) :
    Scans e.render.toList e.tokens [] := by
  cases he with
  | value he => exact he.scans closed_nil
  | @assign x e hx he =>
      have htext : (bin .assign (var x) e).render.toList =
          x.toList ++ ' ' :: '=' :: ' ' :: e.render.toList := by
        simp [render]
      rw [htext]
      have hassign : Op.assign ∈ Op.known := by decide
      have hvalue := (scans_op hassign _).append (he.scans closed_nil).after_blank
      exact (scans_name hx (closed_blank _)).append hvalue.after_blank

end Expr

end AffineRelations
