import SettingsSweep.Config.Store
import SettingsSweep.Proofs.Document.KeyOrder

/-!
Configuration layers. Laid over the defaults, the tree of a whole configuration replaces every value of theirs but
one kind: the choice fields, which are a dictionary, so that those it lacks stay.
-/

set_option autoImplicit false

namespace SettingsSweep

namespace Dict

variable {α β : Type} {d e : Dict α}

def Increasing (d : Dict α) : Prop := d.keys.Pairwise (· < ·)

instance : Decidable d.Increasing := inferInstanceAs (Decidable (List.Pairwise _ _))

theorem find?_putSorted (key name : String) (value : α) (d : Dict α) :
    (d.putSorted key value).find? name = if name = key then some value else d.find? name := by
  induction d with
  | nil =>
    rw [putSorted, find?]
    by_cases here : key = name <;> simp [find?, here, eq_comm]
  | cons entry rest ih =>
    obtain ⟨k, v⟩ := entry
    rw [putSorted]
    split
    · next same =>
      subst same
      simp only [find?, @eq_comm _ name]
      split <;> rfl
    · next other =>
      split
      · simp only [find?, @eq_comm _ name]
      · rw [find?, find?, ih]
        by_cases here : k = name
        · subst here
          simp [other]
        · rw [if_neg here, if_neg here]

theorem mem_keys_putSorted {key name : String} {value : α} :
    name ∈ (d.putSorted key value).keys ↔ name = key ∨ name ∈ d.keys := by
  rw [← not_iff_not, not_or, ← find?_eq_none_iff, ← find?_eq_none_iff, find?_putSorted]
  by_cases same : name = key <;> simp [same]

theorem increasing_putSorted (key : String) (value : α) (h : d.Increasing) :
    (d.putSorted key value).Increasing := by
  induction d with
  | nil => exact List.pairwise_singleton _ _
  | cons entry rest ih =>
    obtain ⟨k, v⟩ := entry
    obtain ⟨first, later⟩ := List.pairwise_cons.1 h
    by_cases same : k = key
    · subst same
      rw [putSorted, if_pos rfl]
      exact h
    · rw [putSorted, if_neg same]
      split
      · next before =>
        refine List.pairwise_cons.2 ⟨fun name mem => ?_, h⟩
        rcases List.mem_cons.1 mem with rfl | mem
        · exact before
        · exact String.lt_trans before (first name mem)
      · next behind =>
        refine List.pairwise_cons.2 ⟨fun name mem => ?_, ih later⟩
        rcases mem_keys_putSorted.1 mem with rfl | mem
        · exact Std.lt_of_le_of_ne (String.not_lt.1 behind) same
        · exact first name mem

theorem increasing_foldl_putSorted (entries : List (String × α)) (h : d.Increasing) :
    (entries.foldl (fun d entry => d.putSorted entry.1 entry.2) d).Increasing := by
  induction entries generalizing d with
  | nil => exact h
  | cons entry entries ih => exact ih (increasing_putSorted entry.1 entry.2 h)

theorem Increasing.nodup (h : d.Increasing) : d.keys.Nodup :=
  h.imp fun before => by
    rintro rfl
    exact String.lt_irrefl _ before

theorem Increasing.eq_of_find? (hd : d.Increasing) (he : e.Increasing)
    (same : ∀ name, d.find? name = e.find? name) : d = e := by
  induction d generalizing e with
  | nil =>
    cases e with
    | nil => rfl
    | cons entry rest => simpa [find?] using same entry.1
  | cons entry rest ih =>
    obtain ⟨k, v⟩ := entry
    cases e with
    | nil => simpa [find?] using same k
    | cons entry' rest' =>
      obtain ⟨k', v'⟩ := entry'
      obtain ⟨first, later⟩ := List.pairwise_cons.1 hd
      obtain ⟨first', later'⟩ := List.pairwise_cons.1 he
      have keys : k = k' := by
        refine Classical.byContradiction fun ne => ?_
        have above : k' < k := by
          refine first' k (Classical.byContradiction fun absent => ?_)
          have found := same k
          rw [find?, if_pos rfl, find?, if_neg (Ne.symm ne), find?_eq_none_iff.2 absent] at found
          cases found
        have below : k < k' := by
          refine first k' (Classical.byContradiction fun absent => ?_)
          have found := same k'
          rw [find?, if_neg ne, find?, if_pos rfl, find?_eq_none_iff.2 absent] at found
          cases found
        exact String.lt_asymm above below
      subst keys
      have values := same k
      rw [find?, if_pos rfl, find?, if_pos rfl] at values
      obtain rfl := Option.some.inj values
      refine congrArg _ (ih later later' fun name => ?_)
      by_cases here : k = name
      · subst here
        rw [find?_eq_none_iff.2 fun mem => String.lt_irrefl k (first k mem),
          find?_eq_none_iff.2 fun mem => String.lt_irrefl k (first' k mem)]
      · have there := same name
        rwa [find?, if_neg here, find?, if_neg here] at there

/-- After entries with different keys are put in one way or another, they are found before what was there. -/
theorem find?_foldl {put : Dict α → String × α → Dict α}
    (one : ∀ d entry name, (put d entry).find? name = if name = entry.1 then some entry.2 else d.find? name)
    {entries : Dict α} (apart : entries.keys.Nodup) (d : Dict α) (name : String) :
    (entries.foldl put d).find? name = (entries.find? name).or (d.find? name) := by
  induction entries generalizing d with
  | nil => rfl
  | cons entry entries ih =>
    obtain ⟨fresh, apart⟩ := List.nodup_cons.1 apart
    rw [List.foldl_cons, ih apart, one]
    by_cases here : name = entry.1
    · subst here
      rw [if_pos rfl, find?_eq_none_iff.2 fresh, find?, if_pos rfl]
      rfl
    · rw [if_neg here, find?, if_neg (Ne.symm here)]

theorem find?_putAll_of_nodup {entries : Dict α} (apart : entries.keys.Nodup) (d : Dict α) (name : String) :
    (d.putAll entries).find? name = (entries.find? name).or (d.find? name) := by
  refine find?_foldl (fun d entry name => ?_) apart d name
  by_cases here : name = entry.1
  · rw [if_pos here, here, find?_put_self]
  · rw [if_neg here, find?_put_of_ne here]

theorem nodup_keys_putAll (entries : List (String × α)) (h : d.keys.Nodup) : (d.putAll entries).keys.Nodup := by
  induction entries generalizing d with
  | nil => exact h
  | cons entry entries ih => exact ih (nodup_keys_put h)

theorem find?_sorted (apart : d.keys.Nodup) (name : String) : d.sorted.find? name = d.find? name := by
  rw [sorted, find?_foldl (fun d entry name => find?_putSorted entry.1 name entry.2 d) apart]
  exact Option.or_none

theorem increasing_sorted (d : Dict α) : d.sorted.Increasing :=
  increasing_foldl_putSorted d List.Pairwise.nil

/-- The entries of `more` whose keys are missing are put where they belong. -/
def fill (d more : Dict α) : Dict α :=
  (more.filter fun entry => !d.has entry.1).foldl (fun d entry => d.putSorted entry.1 entry.2) d

theorem find?_filter_lacking (d more : Dict α) (name : String) :
    (Dict.find? name (more.filter fun entry => !d.has entry.1)) =
      if d.has name then none else more.find? name := by
  induction more with
  | nil => simp [find?]
  | cons entry more ih =>
    by_cases lacking : d.has entry.1 = true <;> by_cases here : entry.1 = name
    · subst here
      simp [lacking, ih]
    · simp [lacking, ih, find?, here]
    · subst here
      simp [lacking, find?]
    · simp [lacking, ih, find?, here]

theorem increasing_fill (h : d.Increasing) (more : Dict α) : (d.fill more).Increasing :=
  increasing_foldl_putSorted _ h

theorem find?_fill {more : Dict α} (apart : more.keys.Nodup) (name : String) :
    (d.fill more).find? name = (d.find? name).or (more.find? name) := by
  have kept : (Dict.keys (more.filter fun entry => !d.has entry.1)).Nodup :=
    apart.sublist (List.filter_sublist.map Prod.fst)
  rw [fill, find?_foldl (fun d entry name => find?_putSorted entry.1 name entry.2 d) kept,
    find?_filter_lacking, has]
  cases d.find? name <;> simp

/-- Putting entries over others, in order, is the same as filling up the entries. -/
theorem sorted_putAll (he : e.Increasing) (apart : d.keys.Nodup) : (d.putAll e).sorted = e.fill d := by
  refine (increasing_sorted _).eq_of_find? (increasing_fill he d) fun name => ?_
  rw [find?_sorted (nodup_keys_putAll e apart), find?_putAll_of_nodup he.nodup, find?_fill apart]

theorem fill_eq_self_iff (hd : d.Increasing) {more : Dict α} (apart : more.keys.Nodup) :
    d.fill more = d ↔ ∀ name ∈ more.keys, d.has name = true := by
  constructor
  · intro same name mem
    rw [← same, has, find?_fill apart, Option.isSome_or, Bool.or_eq_true]
    refine .inr (Option.isSome_iff_ne_none.2 fun absent => ?_)
    exact find?_eq_none_iff.1 absent mem
  · intro all
    refine (increasing_fill hd more).eq_of_find? hd fun name => ?_
    rw [find?_fill apart]
    cases found : d.find? name with
    | some value => rfl
    | none =>
      rw [Option.none_or, find?_eq_none_iff]
      intro mem
      have there := all name mem
      rw [has, found] at there
      cases there

end Dict

namespace ConfigTree

def ofChoices (choices : Dict (List String)) : Dict ConfigTree :=
  choices.map fun (name, options) => (name, ofTexts options)

theorem texts?_ofTexts (texts : List String) : (ofTexts texts).texts? = some texts := by
  rw [ofTexts, texts?]
  induction texts with
  | nil => rfl
  | cons text texts ih =>
    rw [List.map_cons, List.mapM_cons, ih]
    rfl

theorem merge_ofTexts (old : ConfigTree) (texts : List String) : old.merge (ofTexts texts) = ofTexts texts := by
  rw [ofTexts, merge]
  rintro _ ⟨⟩

theorem put_ofChoices (choices : Dict (List String)) (name : String) (options : List String) :
    (ofChoices choices).put name (ofTexts options) = ofChoices (choices.put name options) := by
  induction choices with
  | nil => rfl
  | cons entry rest ih =>
    obtain ⟨k, v⟩ := entry
    change Dict.put name (ofTexts options) ((k, ofTexts v) :: ofChoices rest) = _
    rw [Dict.put, Dict.put]
    split
    · rfl
    · rw [ih]
      rfl

theorem mergeEntries_ofChoices (known choices : Dict (List String)) :
    mergeEntries (ofChoices known) (ofChoices choices) = ofChoices (known.putAll choices) := by
  induction choices generalizing known with
  | nil =>
    change mergeEntries (ofChoices known) [] = _
    rw [mergeEntries]
    rfl
  | cons entry rest ih =>
    obtain ⟨name, options⟩ := entry
    change mergeEntries (ofChoices known) ((name, ofTexts options) :: ofChoices rest) = _
    rw [mergeEntries]
    split
    · rw [merge_ofTexts, put_ofChoices, ih]
      rfl
    · rw [put_ofChoices, ih]
      rfl

theorem sorted?_ofChoices (choices : Dict (List String)) :
    sorted? texts? (.dict (ofChoices choices)) = some choices.sorted := by
  have read : (ofChoices choices).mapM (fun entry => (texts? entry.2).map fun x => (entry.1, x)) =
      some choices := by
    induction choices with
    | nil => rfl
    | cons entry rest ih =>
      change List.mapM _ ((entry.1, ofTexts entry.2) :: ofChoices rest) = _
      rw [List.mapM_cons, ih, texts?_ofTexts]
      rfl
  rw [sorted?, read]
  rfl

end ConfigTree

open ConfigTree

theorem OutputOptions.ofTree?_merge (old output : OutputOptions) :
    ofTree? (old.toTree.merge output.toTree) = some output := by
  simp [ofTree?, toTree, merge, mergeEntries, Dict.find?, Dict.put, record?, setKey?, Field.of, text?, bool?]

theorem InitImageFields.ofTree?_merge (old fields : InitImageFields) :
    ofTree? (old.toTree.merge fields.toTree) = some fields := by
  simp [ofTree?, toTree, merge, mergeEntries, Dict.find?, Dict.put, record?, setKey?, Field.of, text?]

theorem DuplicatePolicy.name?_name (policy : DuplicatePolicy) : name? all (.text policy.name) = some policy := by
  cases policy <;> rfl

/-- A template that is not given is not written. Over options with one it would not be lost. -/
theorem NamingOptions.ofTree?_merge {old : NamingOptions} (none : old.template = none)
    (options : NamingOptions) : ofTree? (old.toTree.merge options.toTree) = some options := by
  obtain ⟨template, filename, extension, onDuplicate⟩ := options
  cases template <;>
    simp [ofTree?, toTree, none, merge, mergeEntries, Dict.find?, Dict.put, record?, setKey?, Field.of, text?,
      templateOfTree?, DuplicatePolicy.name?_name]

theorem Catalog.ofTree?_merge (old catalog : Catalog) : ofTree? (old.toTree.merge catalog.toTree) =
    some { catalog with choices := (old.choices.putAll catalog.choices).sorted } := by
  have image := InitImageFields.ofTree?_merge old.initImage catalog.initImage
  have choices := sorted?_ofChoices (old.choices.putAll catalog.choices)
  rw [← mergeEntries_ofChoices, ofChoices, ofChoices] at choices
  simp [ofTree?, toTree, merge, mergeEntries, Dict.find?, Dict.put, record?, setKey?, Field.of, text?,
    texts?_ofTexts, merge_ofTexts, image, choices]

namespace Configuration

/-- The choice fields of the defaults are put where they are missing. -/
def completed (config : Configuration) : Configuration :=
  { config with fields := { config.fields with
      choices := config.fields.choices.fill ({} : Catalog).choices } }

theorem ofTree?_merge (config : Configuration) :
    ofTree? ((ConfigTree.dict ({} : Configuration).entries).merge (.dict config.entries)) = some { config with
      fields := { config.fields with
        choices := (({} : Catalog).choices.putAll config.fields.choices).sorted } } := by
  have naming := NamingOptions.ofTree?_merge (show ({} : Configuration).naming.template = none from rfl) config.naming
  have fields := Catalog.ofTree?_merge ({} : Configuration).fields config.fields
  have output := OutputOptions.ofTree?_merge ({} : Configuration).output config.output
  simp [ofTree?, entries, merge, mergeEntries, Dict.find?, Dict.put, record?, setKey?, Field.of, text?,
    naming, fields, output]

theorem completed_eq_self_iff {config : Configuration} (order : config.fields.choices.Increasing) :
    config.completed = config ↔
      ∀ name ∈ ({} : Catalog).choices.keys, config.fields.choices.has name = true := by
  rw [← Dict.fill_eq_self_iff order (by decide)]
  constructor
  · intro same
    exact congrArg (fun c : Configuration => c.fields.choices) same
  · intro same
    rw [completed, same]

/-- Over the defaults, with nothing from the environment, the tree of a configuration is that configuration with
    the choice fields that it lacks. -/
theorem ofLayers_entries {config : Configuration} (valid : config.badValue? = none)
    (order : config.fields.choices.Increasing) :
    ofLayers (.dict config.entries) (.dict []) = .ok config.completed := by
  have layers (tree other : Dict ConfigTree) : (ConfigTree.merge (.dict tree) (.dict other)).merge (.dict []) =
      ConfigTree.merge (.dict tree) (.dict other) := by
    simp [merge, mergeEntries]
  have choices := Dict.sorted_putAll order (d := ({} : Catalog).choices) (by decide)
  have read : ofTree? ((ConfigTree.dict ({} : Configuration).entries).merge (.dict config.entries)) =
      some config.completed := by
    rw [ofTree?_merge, choices]
    rfl
  have valid : config.completed.badValue? = none := valid
  rw [ofLayers, layers, read]
  simp only [valid]

end Configuration

end SettingsSweep
