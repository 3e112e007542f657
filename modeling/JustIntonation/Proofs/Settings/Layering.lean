/-
JustIntonation/Proofs/Settings/Layering.lean

Which source a setting comes from.

Settings are made by putting layers over the defaults, one after the other.
Looked at from the result, each setting is decided by itself: by its variable
if the environment has it, else by the last file that says anything of it,
else by the default (`Decided`).  Settings of which all are so decided are
`Merged`, and that mentions no layer.

The step is that a fold of layers shows, at each setting, the last layer that
sets it (`foldl_over`); a layer has been read entry by entry, so the last layer
that sets something stands where the last table stands that has the entry
(`findSome?_said`).

Main result: settings are loaded exactly if every file is read, every variable
that is there can be read, and the merged settings are in range
(`load_eq_ok`).
-/
import JustIntonation.Settings.Load
import JustIntonation.Proofs.Except
import Mathlib.Data.List.Forall2

namespace JustIntonation.Settings

attribute [ext] JustIntonation.Settings

variable {α β : Type}

/-! ### What is said of a setting -/

/-- What a table says under a key, read in a certain way. -/
def saidUnder (k : Key) (read : Toml.Value → Except Error α) (table : Toml.Table) :
    Option (Except Error α) :=
  (table.find? k.text).map read

/-- What a table says of the programs: under `parts`, and only without that under `programs`. -/
def saidOfPrograms (table : Toml.Table) : Option (Except Error (List (Option UInt8))) :=
  match table.find? Key.parts.text with
  | some v => some (partsOf v)
  | none => saidUnder .programs programsOf table

/-- What the last of the tables to say anything says. -/
def lastSaid (said : Toml.Table → Option β) (tables : List Toml.Table) : Option β :=
  tables.reverse.findSome? said

/-- The value of a setting, by what the environment and the files say of it. -/
inductive Decided (environment files : Option (Except Error α)) (default : α) : α → Prop
  | environment {a} (said : environment = some (.ok a)) : Decided environment files default a
  | file {a} (silent : environment = none) (said : files = some (.ok a)) :
      Decided environment files default a
  | default (silent : environment = none) (unsaid : files = none) :
      Decided environment files default default

/-- A variable of the environment can be read. -/
def Variable.Readable (v : Variable) (text : String) : Prop :=
  match v with
  | .t | .f => ∃ x, numberIn v text = .ok x
  | .tuningMethod => ∃ m, methodIn text = .ok m
  | .bendRange | .divisions => ∃ n, wordIn v text = .ok n
  | .verbose => ∃ b, booleanIn text = .ok b

/-- Settings of which each is decided by itself.  There is no variable for the programs. -/
structure Merged (environment : Variable → Option String) (tables : List Toml.Table)
    (s : Settings) : Prop where
  t : Decided ((environment .t).map (numberIn .t)) (lastSaid (saidUnder .t (numberOf .t)) tables)
    ({} : Settings).t s.t
  f : Decided ((environment .f).map (numberIn .f)) (lastSaid (saidUnder .f (numberOf .f)) tables)
    ({} : Settings).f s.f
  tuningMethod : Decided ((environment .tuningMethod).map methodIn)
    (lastSaid (saidUnder .tuningMethod methodOf) tables) ({} : Settings).tuningMethod s.tuningMethod
  bendRange : Decided ((environment .bendRange).map (wordIn .bendRange))
    (lastSaid (saidUnder .bendRange (wordOf .bendRange)) tables)
    ({} : Settings).bendRange s.bendRange
  divisions : Decided ((environment .divisions).map fun text => (wordIn .divisions text).map some)
    (lastSaid (saidUnder .divisions fun v => (wordOf .divisions v).map some) tables)
    ({} : Settings).divisions s.divisions
  verbose : Decided ((environment .verbose).map booleanIn)
    (lastSaid (saidUnder .verbose booleanOf) tables) ({} : Settings).verbose s.verbose
  programs : Decided none (lastSaid saidOfPrograms tables) ({} : Settings).programs s.programs

/-- The table of a file, if it can be read. -/
def SourceFile.table? (file : SourceFile) : Option Toml.Table :=
  match file.contents with
  | .ok text => Toml.read text
  | .error _ => none

/-! ### Layers put over one another -/

/-- A setting that each layer replaces if it says something of it has, in the end, the value that
the last of the layers gives it. -/
theorem foldl_over {get : Settings → α} {set : Layer → Option α}
    (h : ∀ (l : Layer) s, get (l.over s) = (set l).getD (get s)) (layers : List Layer)
    (s : Settings) : get (layers.foldl (fun s l => l.over s) s)
      = (layers.reverse.findSome? set).getD (get s) := by
  induction layers generalizing s with
  | nil => rfl
  | cons l layers ih =>
    rw [List.foldl_cons, ih, h, List.reverse_cons, List.findSome?_append]
    cases layers.reverse.findSome? set with
    | some a => rfl
    | none => cases hl : set l <;> simp [hl]

/-- Where layers say what tables say, the last layer to say something says what the last table
says. -/
theorem findSome?_said {said : Toml.Table → Option (Except Error α)} {set : Layer → Option α}
    {tables : List Toml.Table} {layers : List Layer}
    (h : List.Forall₂ (fun table layer => said table = (set layer).map .ok) tables layers) :
    lastSaid said tables = (layers.reverse.findSome? set).map .ok := by
  have hreverse := List.rel_reverse h
  rw [lastSaid]
  generalize tables.reverse = tables, layers.reverse = layers at hreverse
  clear h
  induction hreverse with
  | nil => rfl
  | @cons table layer tables layers hfirst _ ih =>
    rw [List.findSome?_cons, List.findSome?_cons, hfirst]
    cases set layer with
    | some a => rfl
    | none => exact ih

/-- A value is decided by what was read in the environment and in the files. -/
theorem decided_iff {environment files : Option α} {default a : α} :
    Decided (environment.map .ok) (files.map .ok) default a ↔
      a = environment.getD (files.getD default) := by
  constructor
  · rintro (said | ⟨silent, said⟩ | ⟨silent, unsaid⟩)
    all_goals cases environment <;> cases files <;> simp_all
  · rintro rfl
    cases environment with
    | some b => exact .environment rfl
    | none =>
      cases files with
      | some b => exact .file rfl rfl
      | none => exact .default rfl rfl

/-! ### Layers that were read -/

/-- What may be absent is read as what is said of it. -/
theorem optionally_eq_ok {f : β → Except Error α} {o : Option β} {r : Option α} :
    optionally f o = .ok r ↔ o.map f = r.map .ok := by
  cases o with
  | none => cases r <;> simp [optionally]
  | some b =>
    simp only [optionally, Option.map_some]
    cases f b <;> cases r <;> simp [Except.map]

theorem exists_optionally_eq_ok {f : β → Except Error α} {o : Option β} :
    (∃ r, optionally f o = .ok r) ↔ ∀ b, o = some b → ∃ a, f b = .ok a := by
  cases o with
  | none => simp [optionally]
  | some b =>
    simp only [optionally, Option.some.injEq, forall_eq']
    cases f b <;> simp [Except.map]

/-- A layer that was read from a table says what the table says. -/
structure Layer.Says (l : Layer) (table : Toml.Table) : Prop where
  t : saidUnder .t (numberOf .t) table = l.t.map .ok
  f : saidUnder .f (numberOf .f) table = l.f.map .ok
  tuningMethod : saidUnder .tuningMethod methodOf table = l.tuningMethod.map .ok
  bendRange : saidUnder .bendRange (wordOf .bendRange) table = l.bendRange.map .ok
  divisions : saidUnder .divisions (wordOf .divisions) table = l.divisions.map .ok
  verbose : saidUnder .verbose booleanOf table = l.verbose.map .ok
  programs : saidOfPrograms table = l.programs.map .ok

theorem Layer.says_of_ofTable {table : Toml.Table} {l : Layer} (h : Layer.ofTable table = .ok l) :
    l.Says table := by
  simp only [Layer.ofTable, bind_eq_ok, optionally_eq_ok] at h
  obtain ⟨t, ht, f, hf, bendRange, hbendRange, divisions, hdivisions, tuningMethod, htuningMethod,
    verbose, hverbose, h⟩ := h
  split at h
  · rename_i v hv
    obtain ⟨programs, hprograms, h⟩ := bind_eq_ok.mp h
    obtain rfl := pure_eq_ok.mp h
    refine ⟨ht, hf, htuningMethod, hbendRange, hdivisions, hverbose, ?_⟩
    have hparts : optionally partsOf (some v) = .ok programs := hprograms
    rw [saidOfPrograms, hv]
    exact optionally_eq_ok.mp hparts
  · rename_i hnone
    obtain ⟨programs, hprograms, h⟩ := bind_eq_ok.mp h
    obtain rfl := pure_eq_ok.mp h
    refine ⟨ht, hf, htuningMethod, hbendRange, hdivisions, hverbose, ?_⟩
    rw [saidOfPrograms, hnone]
    exact optionally_eq_ok.mp hprograms

/-- A layer that was read from the environment has what the variables say, and no programs. -/
structure Layer.SaysOf (l : Layer) (environment : Variable → Option String) : Prop where
  t : (environment .t).map (numberIn .t) = l.t.map .ok
  f : (environment .f).map (numberIn .f) = l.f.map .ok
  tuningMethod : (environment .tuningMethod).map methodIn = l.tuningMethod.map .ok
  bendRange : (environment .bendRange).map (wordIn .bendRange) = l.bendRange.map .ok
  divisions : (environment .divisions).map (wordIn .divisions) = l.divisions.map .ok
  verbose : (environment .verbose).map booleanIn = l.verbose.map .ok
  programs : l.programs = none

theorem Layer.saysOf_of_ofEnvironment {environment : Variable → Option String} {l : Layer}
    (h : Layer.ofEnvironment environment = .ok l) : l.SaysOf environment := by
  simp only [Layer.ofEnvironment, bind_eq_ok, pure_eq_ok, optionally_eq_ok] at h
  obtain ⟨t, ht, f, hf, tuningMethod, htuningMethod, bendRange, hbendRange, divisions, hdivisions,
    verbose, hverbose, rfl⟩ := h
  exact ⟨ht, hf, htuningMethod, hbendRange, hdivisions, hverbose, rfl⟩

/-- An environment can be read if each of its variables can. -/
theorem exists_ofEnvironment {environment : Variable → Option String} :
    (∃ l, Layer.ofEnvironment environment = .ok l) ↔
      ∀ v text, environment v = some text → v.Readable text := by
  constructor
  · rintro ⟨l, h⟩
    simp only [Layer.ofEnvironment, bind_eq_ok] at h
    obtain ⟨t, ht, f, hf, tuningMethod, htuningMethod, bendRange, hbendRange, divisions, hdivisions,
      verbose, hverbose, -⟩ := h
    rintro (_ | _ | _ | _ | _ | _) text hv
    case t => exact exists_optionally_eq_ok.mp ⟨t, ht⟩ text hv
    case f => exact exists_optionally_eq_ok.mp ⟨f, hf⟩ text hv
    case tuningMethod => exact exists_optionally_eq_ok.mp ⟨tuningMethod, htuningMethod⟩ text hv
    case bendRange => exact exists_optionally_eq_ok.mp ⟨bendRange, hbendRange⟩ text hv
    case divisions => exact exists_optionally_eq_ok.mp ⟨divisions, hdivisions⟩ text hv
    case verbose => exact exists_optionally_eq_ok.mp ⟨verbose, hverbose⟩ text hv
  · intro h
    obtain ⟨t, ht⟩ := exists_optionally_eq_ok.mpr (h .t)
    obtain ⟨f, hf⟩ := exists_optionally_eq_ok.mpr (h .f)
    obtain ⟨tuningMethod, htuningMethod⟩ := exists_optionally_eq_ok.mpr (h .tuningMethod)
    obtain ⟨bendRange, hbendRange⟩ := exists_optionally_eq_ok.mpr (h .bendRange)
    obtain ⟨divisions, hdivisions⟩ := exists_optionally_eq_ok.mpr (h .divisions)
    obtain ⟨verbose, hverbose⟩ := exists_optionally_eq_ok.mpr (h .verbose)
    refine ⟨{ t, f, tuningMethod, bendRange, divisions, verbose }, ?_⟩
    rw [Layer.ofEnvironment, ht, hf, htuningMethod, hbendRange, hdivisions, hverbose]
    rfl

/-- The tables of files that were read as layers. -/
theorem says_of_mapM_layer {files : List SourceFile} {layers : List Layer}
    (h : files.mapM SourceFile.layer = .ok layers) :
    List.Forall₂ (fun table (l : Layer) => l.Says table) (files.filterMap SourceFile.table?)
      layers := by
  have hall := mapM_eq_ok.mp h
  clear h
  induction hall with
  | nil => exact .nil
  | @cons file l files layers hfile _ ih =>
    simp only [SourceFile.layer, bind_eq_ok] at hfile
    obtain ⟨text, htext, hfile⟩ := hfile
    have hcontents : file.contents = .ok text := by
      cases hfault : file.contents <;> simp_all [Except.mapError]
    split at hfile
    · rename_i table htable
      have htable? : file.table? = some table := by
        rw [SourceFile.table?, hcontents]
        exact htable
      rw [List.filterMap_cons_some htable?]
      exact .cons (Layer.says_of_ofTable hfile) ih
    · exact absurd hfile throw_ne_ok

/-! ### Merged settings -/

section Merged

variable {environment : Variable → Option String} {tables : List Toml.Table} {layers : List Layer}
  {top : Layer}

/-- One setting of the fold of all layers: it is decided as the tables and the environment say. -/
theorem decided_foldl (get : Settings → α) (set : Layer → Option α)
    (h : ∀ (l : Layer) s, get (l.over s) = (set l).getD (get s))
    (htables : List.Forall₂ (fun table (l : Layer) => l.Says table) tables layers)
    {said : Toml.Table → Option (Except Error α)}
    (hsaid : ∀ table (l : Layer), l.Says table → said table = (set l).map .ok)
    {inEnvironment : Option (Except Error α)} (htop : inEnvironment = (set top).map .ok) (a : α) :
    Decided inEnvironment (lastSaid said tables) (get {}) a ↔
      a = get ((layers ++ [top]).foldl (fun s l => l.over s) {}) := by
  rw [htop, findSome?_said (htables.imp hsaid), decided_iff, List.foldl_append, List.foldl_cons,
    List.foldl_nil, h, foldl_over h]

/-- Settings are the merged ones if they are the layers put over the defaults. -/
theorem merged_iff (htables : List.Forall₂ (fun table (l : Layer) => l.Says table) tables layers)
    (htop : top.SaysOf environment) {s : Settings} :
    Merged environment tables s ↔ s = (layers ++ [top]).foldl (fun s l => l.over s) {} := by
  -- A layer has no divisions or a number of them; settings without any have none.
  have hover : ∀ (l : Layer) (s : Settings),
      (l.over s).divisions = (l.divisions.map some).getD s.divisions := by
    intro l s
    cases hl : l.divisions <;> simp [Layer.over, hl]
  have hsomeTable : ∀ (table : Toml.Table) (l : Layer), l.Says table →
      saidUnder .divisions (fun v => (wordOf .divisions v).map some) table
        = (l.divisions.map some).map .ok := by
    intro table l h
    have hl := congrArg (Option.map (Except.map some)) h.divisions
    simpa [saidUnder, Function.comp_def, Except.map] using hl
  have hsomeText : ((environment .divisions).map fun text => (wordIn .divisions text).map some)
      = (top.divisions.map some).map .ok := by
    have hl := congrArg (Option.map (Except.map some)) htop.divisions
    simpa [Function.comp_def, Except.map] using hl
  have hnoPrograms : (none : Option (Except Error (List (Option UInt8))))
      = top.programs.map .ok := by
    rw [htop.programs]
    rfl
  have ht := decided_foldl Settings.t Layer.t (fun _ _ => rfl) htables (fun _ _ h => h.t) htop.t
  have hf := decided_foldl Settings.f Layer.f (fun _ _ => rfl) htables (fun _ _ h => h.f) htop.f
  have htuningMethod := decided_foldl Settings.tuningMethod Layer.tuningMethod (fun _ _ => rfl)
    htables (fun _ _ h => h.tuningMethod) htop.tuningMethod
  have hbendRange := decided_foldl Settings.bendRange Layer.bendRange (fun _ _ => rfl) htables
    (fun _ _ h => h.bendRange) htop.bendRange
  have hdivisions := decided_foldl Settings.divisions _ hover htables hsomeTable hsomeText
  have hverbose := decided_foldl Settings.verbose Layer.verbose (fun _ _ => rfl) htables
    (fun _ _ h => h.verbose) htop.verbose
  have hprograms := decided_foldl Settings.programs Layer.programs (fun _ _ => rfl) htables
    (fun _ _ h => h.programs) hnoPrograms
  rw [Settings.ext_iff]
  constructor
  · intro h
    exact ⟨(ht _).mp h.t, (hf _).mp h.f, (htuningMethod _).mp h.tuningMethod,
      (hbendRange _).mp h.bendRange, (hdivisions _).mp h.divisions, (hverbose _).mp h.verbose,
      (hprograms _).mp h.programs⟩
  · rintro ⟨t, f, tuningMethod, bendRange, divisions, verbose, programs⟩
    exact ⟨(ht _).mpr t, (hf _).mpr f, (htuningMethod _).mpr tuningMethod,
      (hbendRange _).mpr bendRange, (hdivisions _).mpr divisions, (hverbose _).mpr verbose,
      (hprograms _).mpr programs⟩

end Merged

/-- Settings are loaded, with their sources, exactly if every file can be read and is a layer,
every variable that is there can be read, and the merged settings are in range; what a file says
may be out of range where a later one or the environment says something else.  The sources are then
the files and, in their fixed order, the variables that are there. -/
theorem load_eq_ok {files : List SourceFile} {environment : Variable → Option String}
    {s : Settings} {sources : Sources} :
    load files environment = .ok (s, sources) ↔
      (∀ file ∈ files, ∃ layer, file.layer = .ok layer) ∧
      (∀ v text, environment v = some text → v.Readable text) ∧
      Merged environment (files.filterMap SourceFile.table?) s ∧ s.check = .ok () ∧
      sources.files = files.map (·.path) ∧
      sources.overrides
        = [.t, .f, .tuningMethod, .bendRange, .divisions, .verbose].filter
            fun v => (environment v).isSome := by
  rw [← exists_ofEnvironment]
  constructor
  · intro h
    simp only [load, bind_eq_ok, pure_eq_ok] at h
    obtain ⟨layers, hlayers, top, htop, _, hcheck, hs⟩ := h
    obtain ⟨rfl, rfl⟩ := Prod.mk.inj hs
    have hmerged := (merged_iff (says_of_mapM_layer hlayers)
      (Layer.saysOf_of_ofEnvironment htop)).mpr rfl
    exact ⟨exists_mapM_eq_ok_iff.mp ⟨layers, hlayers⟩, ⟨top, htop⟩, hmerged, hcheck, rfl, rfl⟩
  · rintro ⟨hfiles, ⟨top, htop⟩, hmerged, hcheck, hpaths, hoverrides⟩
    obtain ⟨layers, hlayers⟩ := exists_mapM_eq_ok hfiles
    obtain rfl := (merged_iff (says_of_mapM_layer hlayers)
      (Layer.saysOf_of_ofEnvironment htop)).mp hmerged
    simp only [load, bind_eq_ok, pure_eq_ok]
    refine ⟨layers, hlayers, top, htop, (), hcheck, ?_⟩
    obtain ⟨paths, overrides⟩ := sources
    rw [Prod.mk.injEq, Sources.mk.injEq]
    exact ⟨rfl, hpaths.symm, hoverrides.symm⟩

/-- Two files, the first out of range and the second with `programs` that are none. -/
def overriddenFiles : List SourceFile :=
  [⟨"low.toml", .ok "pitch_bend_range = 0\nedo = 12\n[[parts]]\nprogram = 47\n"⟩,
    ⟨"high.toml", .ok "pitch_bend_range = 3\nprograms = true\n[[parts]]\n[[parts]]\nprogram = 1\n"⟩]

/-- An environment of one variable. -/
def overridingVariable : Variable → Option String
  | .divisions => some " 31 "
  | _ => none

theorem load_eq_ok_overridden :
    ∃ s, load overriddenFiles overridingVariable
        = .ok (s, ⟨["low.toml", "high.toml"], [.divisions]⟩) ∧
      s.bendRange = 3 ∧ s.divisions = some 31 ∧ s.programs = [none, some 1] ∧
      (∀ file ∈ overriddenFiles, ∃ layer, file.layer = .ok layer) ∧
      (∀ v text, overridingVariable v = some text → v.Readable text) ∧
      Merged overridingVariable (overriddenFiles.filterMap SourceFile.table?) s := by
  have hload : load overriddenFiles overridingVariable
      = .ok ({ bendRange := 3, divisions := some 31, programs := [none, some 1] },
        ⟨["low.toml", "high.toml"], [.divisions]⟩) := eq_ok_of_toOption (by decide +kernel)
  obtain ⟨hfiles, hvariables, hmerged, -⟩ := load_eq_ok.mp hload
  exact ⟨_, hload, rfl, rfl, rfl, hfiles, hvariables, hmerged⟩

end JustIntonation.Settings
