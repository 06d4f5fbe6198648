import SettingsSweep.Proofs.Command.Project
import SettingsSweep.Proofs.Config.Layers
import SettingsSweep.Proofs.Yaml.RoundTrip

/-!
A configuration that is saved and loaded again.
-/

set_option autoImplicit false

namespace SettingsSweep

/-- No variable sets a configuration value, as when none has the prefix of those that do. -/
def Environment.Plain (environment : Environment) : Prop :=
  ∀ binding ∈ environment, Environment.path? binding.1 = none

theorem Environment.layer_of_plain {environment : Environment} (plain : environment.Plain) :
    environment.layer = .dict [] := by
  rw [layer]
  induction environment with
  | nil => rfl
  | cons binding rest ih =>
    rw [List.foldl_cons, plain binding List.mem_cons_self]
    exact ih fun other mem => plain other (List.mem_cons_of_mem _ mem)

namespace Configuration

variable {config : Configuration} {files files' : FileSystem} {directory : Location} {dir : String}

theorem exists_write_of_save (saved : config.save files directory dir = (files', none)) :
    ∃ made : FileSystem,
      made.write directory (Path.join dir fileName) config.toYaml.toUTF8 = .ok files' := by
  rw [save] at saved
  generalize files.makeDirectories directory dir = nested at saved
  obtain ⟨made, _ | fault⟩ := nested
  · refine ⟨made, ?_⟩
    dsimp only at saved
    cases written : made.write directory (Path.join dir fileName) config.toYaml.toUTF8 with
    | ok files =>
      rw [written] at saved
      rw [(Prod.mk.inj saved).1]
    | error fault =>
      rw [written] at saved
      cases (Prod.mk.inj saved).2
  · cases (Prod.mk.inj saved).2

theorem fileText_saved (saved : config.save files directory dir = (files', none)) :
    fileText files' directory (some dir) = .ok config.toYaml := by
  obtain ⟨made, written⟩ := exists_write_of_save saved
  obtain ⟨noNul, above, way, file, bytes⟩ :=
    FileSystem.write_join_eq_ok Project.isName_fileName written
  exact Command.Holds.fileText ⟨noNul, way, file, bytes⟩

theorem isBlankText_toYaml (config : Configuration) : Text.isBlankText config.toYaml = false := by
  have first : ∃ rest, (Yaml.writtenEntries 0 config.entries) = 'n' :: rest := ⟨_, rfl⟩
  obtain ⟨rest, first⟩ := first
  have text : config.toYaml = String.ofList (Yaml.writtenEntries 0 config.entries) := rfl
  rw [text, first, Text.isBlankText, String.toList_ofList]
  rfl

theorem writable_ofTexts (texts : List String) : Yaml.Writable (.ofTexts texts) := by
  refine .list fun item mem => ?_
  obtain ⟨text, -, rfl⟩ := List.mem_map.1 mem
  exact .text text

theorem writable_naming (options : NamingOptions) : Yaml.Writable options.toTree := by
  obtain ⟨template, filename, extension, onDuplicate⟩ := options
  cases template <;> exact .dict (by simp [Dict.keys]) (by simp [Yaml.Writable.text])

theorem writable_output (output : OutputOptions) : Yaml.Writable output.toTree :=
  .dict (by simp [Dict.keys]) (by simp [Yaml.Writable.text, Yaml.Writable.bool])

theorem writable_initImage (fields : InitImageFields) : Yaml.Writable fields.toTree :=
  .dict (by simp [Dict.keys]) (by simp [Yaml.Writable.text])

theorem writable_choices {choices : Dict (List String)} (order : choices.Increasing) :
    Yaml.Writable (.dict (ConfigTree.ofChoices choices)) := by
  refine .dict ?_ fun entry mem => ?_
  · have keys : Dict.keys (ConfigTree.ofChoices choices) = choices.keys := by
      simp [Dict.keys, ConfigTree.ofChoices]
    rw [keys]
    exact order.nodup
  · obtain ⟨⟨name, options⟩, -, rfl⟩ := List.mem_map.1 mem
    exact writable_ofTexts options

theorem writable_catalog {catalog : Catalog} (order : catalog.choices.Increasing) : Yaml.Writable catalog.toTree := by
  have choices := writable_choices order
  rw [ConfigTree.ofChoices] at choices
  exact .dict (by simp [Dict.keys])
    (by simp [Yaml.Writable.text, writable_ofTexts, choices, writable_initImage])

theorem writable_entries (order : config.fields.choices.Increasing) : Yaml.Writable (.dict config.entries) :=
  .dict (by simp [Dict.keys, entries])
    (by simp [entries, writable_naming, writable_catalog order, writable_output, Yaml.Writable.text])

theorem layerOfText_toYaml (order : config.fields.choices.Increasing) :
    layerOfText config.toYaml = .ok (.dict config.entries) := by
  have read : Yaml.ofText? config.toYaml = some config.entries := Yaml.ofText?_toText (writable_entries order)
  rw [layerOfText, isBlankText_toYaml, read]
  rfl

/-- What is loaded after a configuration is saved is that configuration, over the choice fields of the defaults. -/
theorem load_of_save (valid : config.badValue? = none) (order : config.fields.choices.Increasing)
    {environment : Environment} (plain : environment.Plain)
    (saved : config.save files directory dir = (files', none)) :
    load files' directory environment (some dir) = .ok config.completed := by
  rw [load, fileText_saved saved]
  change ofText config.toYaml environment = _
  rw [ofText, layerOfText_toYaml order, Environment.layer_of_plain plain]
  exact ofLayers_entries valid order

/-- A configuration that is saved and loaded again is the same if and only if it has the choice fields of the
    defaults; any that it lacks are added, and nothing else is changed. -/
theorem save_then_load (valid : config.badValue? = none) (order : config.fields.choices.Increasing)
    {environment : Environment} (plain : environment.Plain)
    (saved : config.save files directory dir = (files', none)) :
    load files' directory environment (some dir) = .ok config.completed ∧
      (config.completed = config ↔
        ∀ name ∈ ({} : Catalog).choices.keys, config.fields.choices.has name = true) :=
  ⟨load_of_save valid order plain saved, completed_eq_self_iff order⟩

/-- Texts of every style stand in it, and what may be left out is. -/
def labelled : Configuration where
  naming := { template := some "seed\n", extension := "" }
  fields := { boolean := [], scheduleSuffixes := [""],
              choices := [("mode", ["it's", "yes: no", "007"]), ("sampler", [])] }
  generatedBy := " \u2028"

def workplace : FileSystem := ⟨[(["sweeps"], .directory)]⟩

theorem save_then_load_labelled :
    labelled.badValue? = none ∧ labelled.fields.choices.Increasing ∧
      Environment.Plain [("HOME", "/root")] ∧
      ∃ stored, labelled.save workplace ["sweeps"] "kept" = (stored, none) ∧
        load stored ["sweeps"] [("HOME", "/root")] (some "kept") = .ok labelled := by
  have valid : labelled.badValue? = none := by decide
  have order : labelled.fields.choices.Increasing := by decide
  have plain : Environment.Plain [("HOME", "/root")] := fun _ mem => by
    rw [List.mem_singleton.1 mem]
    rfl
  have saved : labelled.save workplace ["sweeps"] "kept" =
      ((labelled.save workplace ["sweeps"] "kept").1, none) := rfl
  obtain ⟨loaded, kept⟩ := save_then_load valid order plain saved
  rw [kept.2 (by decide)] at loaded
  exact ⟨valid, order, plain, _, saved, loaded⟩

def choiceless : Configuration where
  fields := { choices := [] }

/-- Choice fields cannot be taken away: what is loaded has those of the defaults again. -/
theorem save_then_load_choiceless :
    choiceless.badValue? = none ∧ choiceless.fields.choices.Increasing ∧
      ∃ stored, choiceless.save workplace ["sweeps"] "kept" = (stored, none) ∧
        load stored ["sweeps"] [] (some "kept") ≠ .ok choiceless := by
  have valid : choiceless.badValue? = none := by decide
  have order : choiceless.fields.choices.Increasing := by decide
  have saved : choiceless.save workplace ["sweeps"] "kept" =
      ((choiceless.save workplace ["sweeps"] "kept").1, none) := rfl
  refine ⟨valid, order, _, saved, ?_⟩
  rw [load_of_save valid order (fun _ mem => absurd mem List.not_mem_nil) saved]
  intro same
  exact absurd (Except.ok.inj same) (by decide)

end Configuration

end SettingsSweep
