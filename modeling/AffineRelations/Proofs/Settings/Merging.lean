import AffineRelations.Settings.Toml
import Mathlib.Data.List.Basic

/-!
# What a settings file changes

Nothing is assumed of the reader of a settings file but what it promises of the
text at hand. A field is matched with the keys that name it exactly or in other
letters, the keys that are reported are those that were matched with nothing,
and asking for a key compares it exactly.

Acceptance looks at the keys in any letter case, and effect at the exact
spelling of a setting. So a file is accepted if each of its keys names a setting
or a group in some letter case and if the settings that it leads to have no
fault. A setting changes only if the file gives it in its own spelling; then it
has the value of a key that names it. A key in other letters alone is accepted
without effect.
-/
namespace AffineRelations

/-- The keys of a document in their order, with their values. Tables have none. -/
abbrev TomlDocument := List (TomlPath × Option TomlValue)

def TomlDocument.keys (doc : TomlDocument) : List TomlPath := doc.map Prod.fst

/-- A key names a setting or a group of settings, in any letter case. -/
def TomlPath.Known (p : TomlPath) : Prop :=
  (∃ σ : Setting, samePath σ.path p) ∨ Setting.isGroup p

theorem Setting.mem_all (σ : Setting) : σ ∈ Setting.all := by
  cases σ <;> decide

instance (p : TomlPath) : Decidable p.Known :=
  decidable_of_iff ((∃ σ ∈ Setting.all, samePath σ.path p) ∨ Setting.isGroup p) <| by
    simp [TomlPath.Known, Setting.mem_all]

def Settings.value (s : Settings) : Setting → TomlValue
  | .width => .integer s.width
  | .entry => .text s.entry
  | .matrices => .bool s.matrices
  | .generators => .bool s.generators
  | .level => .text s.level
  | .format => .text s.format

/-- What a reader promises of a text with the given keys and values. -/
structure DecodedSettings.Reads (d : DecodedSettings) (doc : TomlDocument) : Prop where
  /-- If several keys name a field, any of them may have filled it. -/
  matched : ∀ σ : Setting, (∃ p ∈ doc.keys, samePath σ.path p) →
    ∃ p, samePath σ.path p ∧ (p, some (d.fields.value σ)) ∈ doc
  undecoded : ∀ p, p ∈ d.undecoded ↔ p ∈ doc.keys ∧ ¬TomlPath.Known p
  defined : ∀ σ : Setting, d.defined σ.path ↔ σ.path ∈ doc.keys

theorem samePath_refl (p : TomlPath) : samePath p p := by
  simp [samePath]

namespace Settings
variable {reader : SettingsReader} {s r : Settings} {source text : String} {d : DecodedSettings}

/-- Fields that were filled count where their keys are given. -/
theorem value_merge (s : Settings) (d : DecodedSettings) (σ : Setting) :
    (s.merge d).value σ = if d.defined σ.path then d.fields.value σ else s.value σ := by
  cases σ with
  | width => exact apply_ite TomlValue.integer _ _ _
  | entry => exact apply_ite TomlValue.text _ _ _
  | matrices => exact apply_ite TomlValue.bool _ _ _
  | generators => exact apply_ite TomlValue.bool _ _ _
  | level => exact apply_ite TomlValue.text _ _ _
  | format => exact apply_ite TomlValue.text _ _ _

theorem validate_eq_ok_iff : s.validate reader = .ok r ↔ s.fault? reader = none ∧ s = r := by
  unfold validate
  cases s.fault? reader with
  | some e => simp
  | none => simp

theorem load_eq_ok_iff : s.load reader source text = .ok r ↔
    ∃ d, reader.decode text = some d ∧ d.undecoded = [] ∧ (s.merge d).fault? reader = none ∧
      s.merge d = r := by
  unfold load
  cases reader.decode text with
  | none => simp
  | some d =>
      simp only [Option.some.injEq, exists_eq_left', List.isEmpty_iff]
      split_ifs with hkeys
      · rw [← validate_eq_ok_iff]
        cases (s.merge d).validate reader <;> simp [hkeys, Except.mapError]
      · simp [hkeys]

end Settings

namespace DecodedSettings.Reads
variable {d : DecodedSettings} {doc : TomlDocument}

/-- A reader that matches all keys of a text keeps its promises if it fills
fields and knows keys as the document says. -/
theorem of_decode {reader : SettingsReader} {text : String} {f : Settings}
    (hkeys : ∀ p ∈ doc.keys, TomlPath.Known p)
    (hdecode : (reader.decode text).map (fun d =>
        (d.fields, d.undecoded, Setting.all.map fun σ => d.defined σ.path)) =
      some (f, [], Setting.all.map fun σ => decide (σ.path ∈ doc.keys)))
    (hfields : ∀ σ : Setting, (∃ p ∈ doc.keys, samePath σ.path p) →
      ∃ p, samePath σ.path p ∧ (p, some (f.value σ)) ∈ doc)
    (d : DecodedSettings) (hd : reader.decode text = some d) : d.Reads doc := by
  rw [hd, Option.map_some, Option.some.injEq, Prod.mk.injEq, Prod.mk.injEq] at hdecode
  obtain ⟨rfl, hnone, hdefined⟩ := hdecode
  constructor
  case matched => exact hfields
  case undecoded =>
    intro p
    rw [hnone]
    exact ⟨fun hp => (List.not_mem_nil hp).elim, fun hp => (hp.2 (hkeys p hp.1)).elim⟩
  case defined =>
    intro σ
    rw [List.map_inj_left.mp hdefined σ σ.mem_all, decide_eq_true_iff]

theorem undecoded_eq_nil_iff (h : d.Reads doc) :
    d.undecoded = [] ↔ ∀ p ∈ doc.keys, TomlPath.Known p := by
  rw [List.eq_nil_iff_forall_not_mem]
  refine forall_congr' fun p => ?_
  rw [h.undecoded, not_and, not_not]

/-- A setting that is given has the value of a key that names it. -/
theorem value_of_mem_keys (h : d.Reads doc) (s : Settings) {σ : Setting}
    (hσ : σ.path ∈ doc.keys) :
    ∃ p, samePath σ.path p ∧ (p, some ((s.merge d).value σ)) ∈ doc := by
  rw [s.value_merge, if_pos ((h.defined σ).mpr hσ)]
  exact h.matched σ ⟨σ.path, hσ, samePath_refl σ.path⟩

theorem value_of_not_mem_keys (h : d.Reads doc) (s : Settings) {σ : Setting}
    (hσ : σ.path ∉ doc.keys) : (s.merge d).value σ = s.value σ := by
  rw [s.value_merge, if_neg (mt (h.defined σ).mp hσ)]

end DecodedSettings.Reads

namespace Settings

/-- Let a reader keep its promises of a text. The text is accepted if it can be
decoded, each of its keys names a setting or a group in some letter case, and
the settings that it leads to have no fault. A setting that is given in its own
spelling then has the value of a key that names it, and so its own if it is not
given in other letters too. All other settings are as before. -/
theorem load_effect (reader : SettingsReader) (document : String → TomlDocument)
    (s : Settings) (source text : String)
    (hreads : ∀ d, reader.decode text = some d → d.Reads (document text)) :
    let doc := document text
    ((∃ r, s.load reader source text = .ok r) ↔ ∃ d, reader.decode text = some d ∧
      (∀ p ∈ doc.keys, TomlPath.Known p) ∧ (s.merge d).fault? reader = none) ∧
    ∀ r, s.load reader source text = .ok r →
      (∀ p ∈ doc.keys, TomlPath.Known p) ∧
      (∀ σ : Setting, σ.path ∈ doc.keys →
        ∃ p, samePath σ.path p ∧ (p, some (r.value σ)) ∈ doc) ∧
      (∀ σ : Setting, σ.path ∈ doc.keys → (∀ p ∈ doc.keys, samePath σ.path p → p = σ.path) →
        (σ.path, some (r.value σ)) ∈ doc) ∧
      (∀ σ : Setting, σ.path ∉ doc.keys → r.value σ = s.value σ) ∧
      r.fault? reader = none := by
  intro doc
  constructor
  · constructor
    · rintro ⟨r, hr⟩
      obtain ⟨d, hd, hkeys, hfault, -⟩ := load_eq_ok_iff.mp hr
      exact ⟨d, hd, (hreads d hd).undecoded_eq_nil_iff.mp hkeys, hfault⟩
    · rintro ⟨d, hd, hkeys, hfault⟩
      have hnone := (hreads d hd).undecoded_eq_nil_iff.mpr hkeys
      exact ⟨s.merge d, load_eq_ok_iff.mpr ⟨d, hd, hnone, hfault, rfl⟩⟩
  · intro r hr
    obtain ⟨d, hd, hkeys, hfault, rfl⟩ := load_eq_ok_iff.mp hr
    have hdoc : d.Reads doc := hreads d hd
    refine ⟨hdoc.undecoded_eq_nil_iff.mp hkeys, fun σ hσ => hdoc.value_of_mem_keys s hσ, ?_,
      fun σ hσ => hdoc.value_of_not_mem_keys s hσ, hfault⟩
    intro σ hσ hsole
    obtain ⟨p, hp, hmem⟩ := hdoc.value_of_mem_keys s hσ
    rwa [hsole p (List.mem_map_of_mem hmem) hp] at hmem

/-- A file with the width and a log level in their own spelling and with a group
in other letters, for the reader of settings files. -/
theorem load_effect_other_letters :
    let text := "width = 16\n[Trace]\nmatrices = true\n[log]\nlevel = \"debug\"\n"
    let doc : TomlDocument := [(["width"], some (.integer 16)), (["Trace"], none),
      (["Trace", "matrices"], some (.bool true)), (["log"], none),
      (["log", "level"], some (.text "debug"))]
    let r : Settings := ⟨16, "main", false, false, "debug", "console"⟩
    (∀ d, SettingsReader.toml.decode text = some d → d.Reads doc) ∧
    default.load .toml "input" text = .ok r ∧
    (Setting.width.path, some (r.value .width)) ∈ doc ∧
    (Setting.level.path, some (r.value .level)) ∈ doc ∧
    r.value .matrices = default.value .matrices ∧ r.fault? .toml = none := by
  intro text doc r
  have hreads : ∀ d, SettingsReader.toml.decode text = some d → d.Reads doc := by
    refine .of_decode (f := ⟨16, "", true, false, "debug", ""⟩) (by decide)
      (by decide +kernel) fun σ hσ => ?_
    cases σ with
    | width => exact ⟨["width"], by decide, by simp [doc, value]⟩
    | matrices => exact ⟨["Trace", "matrices"], by decide, by simp [doc, value]⟩
    | level => exact ⟨["log", "level"], by decide, by simp [doc, value]⟩
    | entry | generators | format => exact absurd hσ (by decide)
  have hr : default.load .toml "input" text = .ok r := by decide +kernel
  obtain ⟨-, -, hgiven, hkept, hfault⟩ :=
    (load_effect .toml (fun _ => doc) default "input" text hreads).2 r hr
  exact ⟨hreads, hr, hgiven .width (by decide) (by decide), hgiven .level (by decide) (by decide),
    hkept .matrices (by decide), hfault⟩

/-- A width under a capital letter is accepted and does not take effect. -/
theorem load_drops_capital_width :
    let doc : TomlDocument := [(["Width"], some (.integer 16))]
    (∀ d, SettingsReader.toml.decode "Width = 16\n" = some d → d.Reads doc) ∧
    default.load .toml "input" "Width = 16\n" = .ok default ∧
    default.value .width = .integer 32 := by
  intro doc
  refine ⟨.of_decode (f := ⟨16, "", false, false, "", ""⟩) (by decide)
    (by decide +kernel) fun σ hσ => ?_, by decide +kernel, rfl⟩
  cases σ with
  | width => exact ⟨["Width"], by decide, by simp [doc, value]⟩
  | entry | matrices | generators | level | format => exact absurd hσ (by decide)

end Settings

end AffineRelations
