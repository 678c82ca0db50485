-- What a source says of the settings. Its entries are read one after the other, but their order does
-- not matter: each known name may come once and no other name at all, and a setting is the text that
-- comes with its name, or its default. That holds for any reader that goes through a mapping entry by
-- entry as it is derived from the declaration of the settings.
import Builtins.Config.Yaml
import Builtins.Proofs.Record.Derived
import Builtins.Proofs.Yaml.BlockMapping
import Builtins.Proofs.Yaml.Blanks

namespace Builtins

/-! ## Reading records -/

namespace Yaml

/-- What a reader is relied on for with records, given which sources are mappings of scalars with
which entries, and what a record comes to entry by entry. -/
structure Reader.ReadsRecords (reader : Reader)
    (entries? : String → Option (List (String × String))) (visitor : Record.Visitor) : Prop where
  visits : ∀ r source entries, entries? source = some entries →
    reader.record? r source = visitor r .none entries
  /-- There is no entry in blanks. -/
  blank : ∀ source entries, (∀ c ∈ source.toList, Text.isBlank c = true) →
    entries? source = some entries → entries = []

/-- The reader by nodes can be relied on for that. -/
theorem nodeReader_readsRecords : nodeReader.ReadsRecords entries? Record.visit where
  visits r source entries h := by
    change (entries? source).bind (r.visit .none) = r.visit .none entries
    rw [h]
    rfl
  blank source entries hblank h := by
    obtain ⟨node, hnode, hentries⟩ := Option.bind_eq_some_iff.mp h
    obtain ⟨text, rfl⟩ := Node.eq_plain_of_blank hblank hnode
    by_cases htext : text = ""
    · obtain rfl := htext
      cases hentries
      rfl
    · unfold Node.entries? at hentries
      simp [htext] at hentries

end Yaml

/-! ## Settings by their names -/

/-- A setting that a source may give. -/
inductive Setting where
  | rangeDiagnostic
  | logFilter

namespace Setting

/-- The name that the setting is given by. -/
def name : Setting → String
  | rangeDiagnostic => "range_diagnostic"
  | logFilter => "log_filter"

def value (k : Setting) (config : Config) : String :=
  match k with
  | rangeDiagnostic => config.rangeDiagnostic
  | logFilter => config.logFilter

theorem eq_of_value {c d : Config} (h : ∀ k : Setting, k.value c = k.value d) : c = d := by
  obtain ⟨_, _⟩ := c
  obtain ⟨_, _⟩ := d
  obtain rfl := h .rangeDiagnostic
  obtain rfl := h .logFilter
  rfl

/-- The settings are the fields of their declaration. -/
theorem mem_names_iff {text : String} :
    text ∈ Config.record.names ↔ ∃ k : Setting, text = k.name := by
  have hnames : Config.record.names = [rangeDiagnostic.name, logFilter.name] := rfl
  rw [hnames, List.mem_pair]
  constructor
  · rintro (rfl | rfl)
    · exact ⟨_, rfl⟩
    · exact ⟨_, rfl⟩
  · rintro ⟨k, rfl⟩
    cases k
    · exact Or.inl rfl
    · exact Or.inr rfl

end Setting

namespace Config

variable {source : String} {entries entries' : List (String × String)} {config config' : Config}

/-! ## What entries settle -/

/-- Whether entries are of settings only, and of each setting at most once. -/
structure Acceptable (entries : List (String × String)) : Prop where
  known : ∀ e ∈ entries, ∃ k : Setting, e.1 = k.name
  once : (entries.map Prod.fst).Nodup

theorem accepts_iff : record.Accepts entries ↔ Acceptable entries :=
  ⟨fun h => ⟨fun e he => Setting.mem_names_iff.mp (h.known e he), h.once⟩,
    fun h => ⟨fun e he => Setting.mem_names_iff.mpr (h.known e he), h.once⟩⟩

theorem Acceptable.perm (h : Acceptable entries) (hperm : entries.Perm entries') :
    Acceptable entries' :=
  ⟨fun e he => h.known e (hperm.mem_iff.mpr he), (hperm.map Prod.fst).nodup_iff.mp h.once⟩

/-- What the settings are by entries. -/
structure Settles (entries : List (String × String)) (config : Config) : Prop where
  /-- A setting that an entry is of is the text of that entry. -/
  told : ∀ (k : Setting) text, (k.name, text) ∈ entries → k.value config = text
  /-- Any other keeps its default. -/
  kept : ∀ k : Setting, k.name ∉ entries.map Prod.fst → k.value config = k.value {}

namespace Settles

theorem unique (h : Settles entries config) (h' : Settles entries config') : config = config' := by
  apply Setting.eq_of_value
  intro k
  by_cases hk : k.name ∈ entries.map Prod.fst
  · obtain ⟨⟨_, text⟩, hmem, rfl⟩ := List.mem_map.mp hk
    rw [h.told k text hmem, h'.told k text hmem]
  · rw [h.kept k hk, h'.kept k hk]

theorem perm (h : Settles entries config) (hperm : entries.Perm entries') :
    Settles entries' config := by
  constructor
  case told => exact fun k text hmem => h.told k text (hperm.mem_iff.mpr hmem)
  case kept => exact fun k hk => h.kept k fun hmem => hk ((hperm.map Prod.fst).mem_iff.mp hmem)

/-- The settings are by their entries what the fields of their declaration are. -/
theorem of_told {given : Record.Given} (h : Record.Told .none entries given)
    (hconfig : ∀ k : Setting, k.value config = (given k.name).getD (k.value {})) :
    Settles entries config := by
  constructor
  case told =>
    intro k text hmem
    rw [hconfig k, h.told k.name text hmem, Option.getD_some]
  case kept =>
    intro k hk
    rw [hconfig k, h.kept k.name hk, Record.Given.none, Option.getD_none]

end Settles

/-! ## Sources -/

/-- The texts of the declared fields are those of the settings by their names. -/
theorem exists_ofTexts?_fields (given : Record.Given) :
    ∃ config, ofTexts? (record.fields.map fun field => (given field.1).getD field.2) = some config ∧
      ∀ k : Setting, k.value config = (given k.name).getD (k.value {}) :=
  ⟨_, rfl, fun k => by cases k <;> rfl⟩

theorem ofSource_of_blank [Yaml.Reader] (h : ∀ c ∈ source.toList, Text.isBlank c = true) :
    ofSource source = .ok {} := by
  unfold ofSource
  rw [if_pos (List.all_eq_true.mpr h)]

theorem ofSource_of_not_blank [reader : Yaml.Reader]
    (h : ¬ ∀ c ∈ source.toList, Text.isBlank c = true) :
    ofSource source = ((reader.record? record source).bind ofTexts?).elim (.error .malformed) .ok := by
  unfold ofSource
  rw [if_neg (by rwa [List.all_eq_true])]
  cases (reader.record? record source).bind ofTexts? <;> rfl

section Read

variable [reader : Yaml.Reader] {entries? : String → Option (List (String × String))}
  {visitor : Record.Visitor} (hvisitor : visitor.Derived)
  (hreader : reader.ReadsRecords entries? visitor) (hsource : entries? source = some entries)
include hvisitor hreader hsource

/-- The settings of acceptable entries are what these settle. -/
theorem exists_settles (h : Acceptable entries) :
    ∃ config, ofSource source = .ok config ∧ Settles entries config := by
  by_cases hblank : ∀ c ∈ source.toList, Text.isBlank c = true
  · obtain rfl := hreader.blank source entries hblank hsource
    exact ⟨{}, ofSource_of_blank hblank, by simp, fun _ _ => rfl⟩
  · have hnew : ∀ e ∈ entries, Record.Given.none e.1 = none := fun _ _ => rfl
    obtain ⟨given, htold, hread⟩ := hvisitor.exists_of_accepts (accepts_iff.mpr h) hnew
    have hrecord : reader.record? record source =
        some (record.fields.map fun field => (given field.1).getD field.2) := by
      rw [hreader.visits record source entries hsource, hread, hvisitor.fillsIn record given rfl]
    obtain ⟨config, htexts, hconfig⟩ := exists_ofTexts?_fields given
    refine ⟨config, ?_, .of_told htold hconfig⟩
    rw [ofSource_of_not_blank hblank, hrecord, Option.bind_some, htexts, Option.elim_some]

/-- Other entries give no settings. -/
theorem ofSource_of_not_acceptable (h : ¬ Acceptable entries) :
    ofSource source = .error .malformed := by
  have hblank : ¬ ∀ c ∈ source.toList, Text.isBlank c = true := by
    intro hblank
    obtain rfl := hreader.blank source entries hblank hsource
    exact h (accepts_iff.mp (Record.accepts_nil record))
  have hrecord : reader.record? record source = none := by
    rw [hreader.visits record source entries hsource, Option.eq_none_iff_forall_ne_some]
    intro texts htexts
    exact h (accepts_iff.mp (hvisitor.accepts_of_eq_some rfl htexts).1)
  rw [ofSource_of_not_blank hblank, hrecord, Option.bind_none, Option.elim_none]

end Read

/-! ## The law -/

/-- What comes of a source by its entries. -/
structure Decides (entries : List (String × String)) (outcome : Except ConfigError Config) :
    Prop where
  /-- There are settings just if every name is that of a setting, and no name comes twice. -/
  succeeds : (∃ config, outcome = .ok config) ↔ Acceptable entries
  fails : ¬ Acceptable entries → outcome = .error .malformed
  settles : ∀ config, outcome = .ok config → Settles entries config

/-- What comes of a source does not depend on the order of its entries. -/
theorem Decides.eq_of_perm {outcome outcome' : Except ConfigError Config}
    (h : Decides entries outcome) (h' : Decides entries' outcome') (hperm : entries.Perm entries') :
    outcome = outcome' := by
  by_cases hacceptable : Acceptable entries
  · obtain ⟨config, rfl⟩ := h.succeeds.mpr hacceptable
    obtain ⟨config', rfl⟩ := h'.succeeds.mpr (hacceptable.perm hperm)
    rw [((h.settles config rfl).perm hperm).unique (h'.settles config' rfl)]
  · rw [h.fails hacceptable, h'.fails fun h' => hacceptable (h'.perm hperm.symm)]

theorem decides [reader : Yaml.Reader] {entries? : String → Option (List (String × String))}
    {visitor : Record.Visitor} (hvisitor : visitor.Derived)
    (hreader : reader.ReadsRecords entries? visitor) (hsource : entries? source = some entries) :
    Decides entries (ofSource source) := by
  by_cases hacceptable : Acceptable entries
  · obtain ⟨config, hok, hsettles⟩ := exists_settles hvisitor hreader hsource hacceptable
    rw [hok]
    exact ⟨⟨fun _ => hacceptable, fun _ => ⟨config, rfl⟩⟩, fun hnot => absurd hacceptable hnot,
      fun config' h => by cases h; exact hsettles⟩
  · rw [ofSource_of_not_acceptable hvisitor hreader hsource hacceptable]
    exact ⟨⟨by rintro ⟨_, ⟨⟩⟩, fun h => absurd h hacceptable⟩, fun _ => rfl, by rintro _ ⟨⟩⟩

/-- A mapping of scalars gives the settings if it names each at most once and nothing else. They are
what its entries say, and otherwise as ever; and the same whatever the order of the entries. Nothing
but blanks counts as a mapping without entries. This holds for every reader that goes through the
entries of a mapping with a visitor that is derived from the declaration of the settings. -/
theorem settings_may_be_given_in_any_order [reader : Yaml.Reader]
    {entries? : String → Option (List (String × String))} {visitor : Record.Visitor}
    (hvisitor : visitor.Derived) (hreader : reader.ReadsRecords entries? visitor) :
    (∀ source entries, entries? source = some entries → Decides entries (ofSource source)) ∧
      (∀ source source' entries entries', entries? source = some entries →
        entries? source' = some entries' → entries.Perm entries' →
          ofSource source = ofSource source') ∧
      ∀ blank : String, (∀ c ∈ blank.toList, Text.isBlank c = true) →
        ofSource blank = .ok {} ∧
          ∀ source, entries? source = some [] → ofSource source = ofSource blank := by
  refine ⟨fun _ _ => decides hvisitor hreader, ?order, ?blank⟩
  case order =>
    intro source source' entries entries' h h' hperm
    exact (decides hvisitor hreader h).eq_of_perm (decides hvisitor hreader h') hperm
  case blank =>
    intro blank hblank
    refine ⟨ofSource_of_blank hblank, fun source h => ?_⟩
    obtain ⟨config, hok, hsettles⟩ := exists_settles hvisitor hreader h
      (accepts_iff.mp (Record.accepts_nil record))
    rw [hok, ofSource_of_blank hblank, hsettles.unique ⟨by simp, fun _ _ => rfl⟩]

/-- A line each, with quotes or without, or both between braces; and a name with a letter too much. -/
theorem two_settings_are_given_either_way :
    let lines := "log_filter: info\nrange_diagnostic: 'it''s 5'\n"
    let braces := "\x7brange_diagnostic: \"it's 5\", 'log_filter': info\x7d"
    let typo := "range_diagnostics: 5"
    Yaml.entries? lines = some [("log_filter", "info"), ("range_diagnostic", "it's 5")] ∧
      Yaml.entries? braces = some [("range_diagnostic", "it's 5"), ("log_filter", "info")] ∧
      ofSource lines = .ok { rangeDiagnostic := "it's 5", logFilter := "info" } ∧
      ofSource braces = ofSource lines ∧
      ofSource (Yaml.entryLines [("range_diagnostic", "it's 5"), ("log_filter", "info")]) =
        ofSource lines ∧
      Yaml.entries? typo = some [("range_diagnostics", "5")] ∧
      ofSource typo = .error .malformed ∧
      Yaml.entries? "\x7b\x7d" = some [] ∧ ofSource "\x7b\x7d" = ofSource " \n\t" := by
  intro lines braces typo
  obtain ⟨hdecides, horder, hblank⟩ :=
    settings_may_be_given_in_any_order Record.derived_visit Yaml.nodeReader_readsRecords
  have hlines : Yaml.entries? lines =
      some [("log_filter", "info"), ("range_diagnostic", "it's 5")] := by decide +kernel
  have hbraces : Yaml.entries? braces =
      some [("range_diagnostic", "it's 5"), ("log_filter", "info")] := by decide +kernel
  have htypo : Yaml.entries? typo = some [("range_diagnostics", "5")] := by decide +kernel
  have hempty : Yaml.entries? "\x7b\x7d" = some [] := by decide +kernel
  refine ⟨hlines, hbraces, ?settled, ?order, ?quoted, htypo, ?refused, hempty, ?blank⟩
  case settled =>
    have hdecided := hdecides _ _ hlines
    have hacceptable : Acceptable [("log_filter", "info"), ("range_diagnostic", "it's 5")] := by
      refine ⟨?_, by simp⟩
      intro e he
      rcases List.mem_pair.mp he with rfl | rfl
      · exact ⟨.logFilter, rfl⟩
      · exact ⟨.rangeDiagnostic, rfl⟩
    obtain ⟨config, hok⟩ := hdecided.succeeds.mpr hacceptable
    have hsettles := hdecided.settles config hok
    have hconfig : config = { rangeDiagnostic := "it's 5", logFilter := "info" } := by
      apply Setting.eq_of_value
      intro k
      cases k with
      | rangeDiagnostic => exact hsettles.told .rangeDiagnostic "it's 5" (by simp [Setting.name])
      | logFilter => exact hsettles.told .logFilter "info" (by simp [Setting.name])
    rw [hok, hconfig]
  case order => exact horder _ _ _ _ hbraces hlines (List.Perm.swap _ _ _)
  case quoted =>
    have hrange : Yaml.FitsLine ("range_diagnostic", "it's 5") :=
      ⟨by simp [Yaml.Printable], by simp [Yaml.Printable], by decide⟩
    have hfilter : Yaml.FitsLine ("log_filter", "info") :=
      ⟨by simp [Yaml.Printable], by simp [Yaml.Printable], by decide⟩
    have hfits : ∀ e ∈ [("range_diagnostic", "it's 5"), ("log_filter", "info")],
        Yaml.FitsLine e := by
      simp [hrange, hfilter]
    have hwritten := Yaml.entries?_entryLines (by simp) hfits
    exact horder _ _ _ _ hwritten hlines (List.Perm.swap _ _ _)
  case refused =>
    refine (hdecides _ _ htypo).fails fun h => ?_
    obtain ⟨k, hk⟩ := h.known _ List.mem_cons_self
    cases k <;> simp [Setting.name] at hk
  case blank => exact (hblank " \n\t" (by simp [Text.isBlank])).2 _ hempty

end Config

end Builtins
