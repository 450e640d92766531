import AffineRelations.Proofs.Expr.Scanning
import AffineRelations.Proofs.Text.Utf8
import Mathlib.Data.List.TakeWhile

/-!
# Printing and parsing are inverse

The text of a statement is scanned to the tokens of the statement, and these
are read back to it. Nothing else is ever parsed: what the parser returns is a
statement, so that its text is parsed to the same tree again.
-/
namespace AffineRelations

namespace Source

theorem locate_plain {cs : List Char} (h : ∀ c ∈ cs, isPlain c) (line col : ℕ) :
    ∃ pos, (locate line col (cs.map some)).ending = .eof pos ∧
      (locate line col (cs.map some)).chars.map (·.2) = cs := by
  induction cs generalizing line col with
  | nil => exact ⟨_, rfl, rfl⟩
  | cons c cs ih =>
      obtain ⟨hc, hcs⟩ := List.forall_mem_cons.mp h
      rw [List.map_cons, locate, if_neg (isPlain_iff.mp hc).1]
      split_ifs
      · obtain ⟨pos, hending, hchars⟩ := ih hcs (line + 1) 1
        exact ⟨pos, hending, congrArg (c :: ·) hchars⟩
      · obtain ⟨pos, hending, hchars⟩ := ih hcs line (col + 1)
        exact ⟨pos, hending, congrArg (c :: ·) hchars⟩

theorem dropMark_plain {cs : List (Position × Char)} (h : ∀ c ∈ cs.map (·.2), isPlain c) :
    dropMark cs = cs := by
  cases cs with
  | nil => rfl
  | cons c cs => rw [dropMark, if_neg (isPlain_iff.mp (h c.2 List.mem_cons_self)).2]

/-- A text of plain characters reaches the scanner as it is. -/
theorem ofString_plain {s : String} (h : ∀ c ∈ s.toList, isPlain c) :
    ∃ pos, (ofString s).ending = .eof pos ∧ (ofString s).chars.map (·.2) = s.toList := by
  rw [ofString, ofChars]
  split_ifs with hempty
  · rw [List.isEmpty_map, List.isEmpty_iff] at hempty
    exact ⟨none, rfl, hempty.symm⟩
  · obtain ⟨pos, hending, hchars⟩ := locate_plain h 1 1
    refine ⟨pos, hending, ?_⟩
    simp only [dropMark_plain (hchars ▸ h), hchars]

end Source

/-- The scanner calls nothing a name that is not one. -/
theorem takeToken_proper (c : Char) (cs : List (Position × Char)) :
    (takeToken c cs).1.Proper := by
  intro x hx
  rw [takeToken] at hx
  split_ifs at hx with hc hdigit
  · obtain rfl := Token.name.inj hx
    refine ⟨c, (takeChars isNameChar cs).1, String.toList_ofList, hc, ?_⟩
    intro d hd
    obtain ⟨p, hp, rfl⟩ := List.mem_map.mp hd
    exact List.mem_takeWhile_imp (p := fun d : Position × Char => isNameChar d.2) hp
  · simp only [signToken] at hx
    split at hx <;> cases hx

theorem scan_proper (ending : Ending) (cs : List (Position × Char)) :
    ∀ item ∈ (TokenList.scan ending cs).items, item.2.Proper := by
  fun_induction TokenList.scan ending cs with
  | case1 | case3 | case4 => exact List.forall_mem_nil _
  | case2 pos c cs hblank ih => exact ih
  | case5 pos c cs hblank front hfault hopen ih =>
      exact List.forall_mem_cons.mpr ⟨takeToken_proper c cs, ih⟩

namespace Expr

/-- What scans to the tokens of a tree is parsed to the tree. -/
theorem parse_of_scans {s : String} {ts : List Token} (hscan : Scans s.toList ts [])
    {st : Reading} (hreads : Reading.Reads .start ts st) {e : Expr} (hfin : st.finish = .ok e) :
    parse s = .ok e := by
  obtain ⟨pos, hending, hchars⟩ := Source.ofString_plain hscan.plain
  obtain ⟨items, hitems, heq⟩ := hscan.scan_eq pos (Source.ofString s).chars [] hchars rfl
  rw [List.append_nil, TokenList.scan, List.append_nil] at heq
  have hall : Reading.start.readAll items = .ok st := by
    rw [Reading.readAll_eq_ok_iff, hitems]
    exact hreads
  rw [parse, ofSource, TokenList.ofSource, hending, heq, ofTokens]
  simp only [hall, hfin]

theorem isStatement_of_ofSource {src : Source} {e : Expr} (h : ofSource src = .ok e) :
    e.IsStatement := by
  rw [ofSource, ofTokens] at h
  split at h
  · cases h
  · next st hread =>
      have hproper : ∀ t ∈ (TokenList.ofSource src).items.map (·.2), t.Proper := by
        intro t ht
        obtain ⟨item, hitem, rfl⟩ := List.mem_map.mp ht
        exact scan_proper _ _ item hitem
      have hsound := Reading.sound_start.reads hproper (Reading.readAll_eq_ok_iff.mp hread)
      split at h
      · cases h
      · split at h
        · next e' hfin =>
            rw [← Except.ok.inj h]
            exact hsound.isStatement hfin
        · cases h

theorem parseBytes_toUTF8 (s : String) : parseBytes s.toUTF8.data.toList = parse s := by
  rw [parseBytes, Source.ofBytes, Text.decodeUtf8_toUTF8, parse, Source.ofString]

/-- The text of a statement is parsed to the statement, and whatever is parsed,
from characters or from bytes, is a statement, which its text gives again. -/
theorem parse_render_inverse :
    (∀ e : Expr, e.IsStatement →
        parse e.render = .ok e ∧ parseBytes e.render.toUTF8.data.toList = .ok e) ∧
      (∀ (s : String) (e : Expr), parse s = .ok e →
        e.IsStatement ∧ parse e.render = parse s) ∧
      ∀ (bytes : List UInt8) (e : Expr), parseBytes bytes = .ok e →
        e.IsStatement ∧ parseBytes e.render.toUTF8.data.toList = parseBytes bytes := by
  have hparse {e : Expr} (he : e.IsStatement) : parse e.render = .ok e := by
    obtain ⟨st, hreads, hfin⟩ := Reading.reads_statement he
    exact parse_of_scans he.scans hreads hfin
  refine ⟨?_, ?_, ?_⟩
  · intro e he
    exact ⟨hparse he, (parseBytes_toUTF8 e.render).trans (hparse he)⟩
  · intro s e h
    have he := isStatement_of_ofSource h
    exact ⟨he, (hparse he).trans h.symm⟩
  · intro bytes e h
    have he := isStatement_of_ofSource h
    exact ⟨he, ((parseBytes_toUTF8 e.render).trans (hparse he)).trans h.symm⟩

/-- The least number, which is read through a literal beyond the greatest, and a
negative right operand below a comparison that is itself a value. -/
theorem parse_render_least : parse "x = (-9223372036854775808 < (x - -1))" =
    .ok (.bin .assign (.var "x")
      (.bin .less (.num Int64.minValue) (.bin .sub (.var "x") (.num (-1))))) := by
  have hname : IsName "x" := ⟨'x', [], by decide, by decide, nofun⟩
  have hvalue : IsValue (.bin .less (.num Int64.minValue) (.bin .sub (.var "x") (.num (-1)))) :=
    .bin (by decide) (.num _) (.bin (by decide) (.var hname) (.num _))
  have htext : (bin .assign (.var "x") (.bin .less (.num Int64.minValue)
      (.bin .sub (.var "x") (.num (-1))))).render = "x = (-9223372036854775808 < (x - -1))" := by
    decide +kernel
  have hparse := (parse_render_inverse.1 _ (.assign hname hvalue)).1
  rwa [htext] at hparse

end Expr

end AffineRelations
