/-
JustIntonation/Proofs/Settings/RoundTrip.lean

Settings that are written to a file and loaded again.

The file of settings is a plain document (`document_toToml`), and the table of
its statements has a pair for each setting and an element for each part
(`read_toToml`).  The layer of this table sets everything to what it was
(`ofTable_table`), so nothing is left of the defaults.

Main result: settings that pass their check are loaded from their own file as
they are (`loadFiles_toToml`).
-/
import JustIntonation.Proofs.Settings.Check
import JustIntonation.Proofs.Toml.Document
import JustIntonation.Proofs.Toml.Scalar
import JustIntonation.Proofs.Toml.Tables
import JustIntonation.Settings.Discovery
import JustIntonation.Settings.Text

namespace JustIntonation.Settings

open Toml

/-! ### Words and bytes -/

theorem toNat_le_maxByte (n : UInt8) : n.toNat ≤ maxByte := Nat.le_of_lt_succ n.toNat_lt

theorem toNat_le_maxWord (n : UInt32) : n.toNat ≤ maxWord := Nat.le_of_lt_succ n.toNat_lt

/-- An integer within a limit is what an entry of it is read as. -/
theorem integerOf_natCast {k : Key} {n limit : ℕ} (h : n ≤ limit) :
    integerOf k limit (.integer n) = .ok n := by
  have hrange : (0 : ℤ) ≤ n ∧ (n : ℤ) ≤ limit := by omega
  rw [integerOf, if_pos hrange, Int.toNat_natCast]

/-! ### The table of settings -/

/-- The pairs of a part. -/
def partPairs (program : Option UInt8) : List (String × Value) :=
  program.toList.map fun p => (Key.program.text, .integer p.toNat)

/-- The pairs of settings in front of the parts. -/
def pairs (s : Settings) : List (String × Value) :=
  [(Key.t.text, .float s.t), (Key.f.text, .float s.f),
    (Key.tuningMethod.text, .string s.tuningMethod.text),
    (Key.bendRange.text, .integer s.bendRange.toNat)]
  ++ (s.divisions.toList.map fun d => (Key.divisions.text, .integer d.toNat))
  ++ [(Key.verbose.text, .boolean s.verbose)]

/-- The keys of these pairs. -/
def keys (s : Settings) : List Key :=
  [.t, .f, .tuningMethod, .bendRange] ++ (s.divisions.toList.map fun _ => .divisions) ++ [.verbose]

theorem map_fst_pairs (s : Settings) : s.pairs.map Prod.fst = s.keys.map Key.text := by
  rw [pairs, keys]
  cases s.divisions <;> rfl

theorem text_injective : Function.Injective Key.text := by
  intro k l h
  cases k <;> cases l <;> first | rfl | exact absurd h (by decide)

theorem nodup_pairs (s : Settings) : (s.pairs.map Prod.fst).Nodup := by
  rw [map_fst_pairs]
  apply List.Nodup.map text_injective
  cases hdivisions : s.divisions <;> simp [keys, hdivisions]

theorem parts_not_mem_pairs (s : Settings) : Key.parts.text ∉ s.pairs.map Prod.fst := by
  rw [map_fst_pairs, List.mem_map_of_injective text_injective]
  simp [keys]

/-- No setting is a table. -/
theorem withDates_pairs (s : Settings) : ∀ p ∈ s.pairs, p.2.withDates = some p.2 := by
  rw [pairs]
  cases s.divisions <;> simp [Value.withDates]

theorem withDates_partPairs (program : Option UInt8) :
    ∀ p ∈ partPairs program, p.1 ≠ dateKey ∧ p.2.withDates = some p.2 := by
  cases program <;> simp [partPairs, Value.withDates, dateKey, Key.text]

theorem nodup_partPairs (program : Option UInt8) :
    ((partPairs program).map Prod.fst).Nodup := by
  cases program <;> simp [partPairs]

def table (s : Settings) : Table := written s.pairs Key.parts.text (s.programs.map partPairs)

/-! ### Its text -/

theorem isBare_text (k : Key) : IsBare k.text := by
  cases k <;> exact ⟨List.cons_ne_nil _ _, List.all_eq_true.mp rfl⟩

theorem isValue_toString {n : ℕ} (hn : n ≤ maxWord) :
    IsValue (toString n).toList (.integer n) := by
  have hlimit : (n : ℤ) ≤ Binary64.maxInt64 := by
    rw [maxWord] at hn
    rw [Binary64.maxInt64]
    omega
  rw [Text.toList_toString]
  exact isValue_of_scalar? (isToken_of_isNumeric (isNumeric_toDigits n)) (scalar?_toDigits hlimit)

theorem sign_of_isPositive {x : Binary64} (h : isPositive x = true) :
    x.negative = false ∧ x.isFinite = true ∧ x.isZero = false := by
  obtain ⟨hlt, hfinite⟩ := Bool.and_eq_true_iff.mp h
  have hrank : Binary64.rank 0 = 0 := by decide +kernel
  have hpos : 0 < x.rank := by
    rw [Binary64.lt, hrank] at hlt
    exact of_decide_eq_true (Bool.and_eq_true_iff.mp hlt).2
  rw [Binary64.rank] at hpos
  split_ifs at hpos with hsign
  · omega
  · exact ⟨Bool.eq_false_iff.mpr hsign, hfinite, decide_eq_false (by omega)⟩

theorem isValue_format {x : Binary64} (h : isPositive x = true) :
    IsValue (x.format Binary64.general).toList (.float x) := by
  obtain ⟨hsign, hfinite, hzero⟩ := sign_of_isPositive h
  exact isValue_of_scalar? (isToken_of_isNumeric (isNumeric_format hsign hfinite hzero))
    (scalar?_format hsign hfinite hzero)

theorem isValue_boolean (b : Bool) :
    IsValue (if b then "true" else "false").toList (.boolean b) := by
  cases b
  · exact isValue_of_scalar? ⟨⟨'f', _, rfl, by simp⟩, by simp [isDelimiter, isBlank]⟩ rfl
  · exact isValue_of_scalar? ⟨⟨'t', _, rfl, by simp⟩, by simp [isDelimiter, isBlank]⟩ rfl

theorem isValue_method (m : Midi.TuningMethod) :
    IsValue ("\"" ++ m.text ++ "\"").toList (.string m.text) := by
  have hletters : ∀ c ∈ m.text.toList, isPlain c = true ∧ c ≠ '"' ∧ c ≠ '\\' := by
    cases m <;> simp [Midi.TuningMethod.text, isPlain]
  have htext : ("\"" ++ m.text ++ "\"").toList = '"' :: (m.text.toList ++ ['"']) := by
    simp
  rw [htext]
  exact isValue_string hletters

section Lines

variable {cs : List Char} {ss : List Statement}

theorem document_pairLine {k : Key} {text : String} {v : Value} (hv : IsValue text.toList v)
    (rest : Document cs ss) :
    Document ((pairLine k text).toList ++ cs) (pairStatement (k.text, v) :: ss) := by
  have htext : (pairLine k text).toList ++ cs
      = k.text.toList ++ ' ' :: '=' :: ' ' :: text.toList ++ '\n' :: cs := by
    simp [pairLine]
  rw [htext]
  exact .statement (isLine_pair (isBare_text k) hv) rest

theorem document_partLines (program : Option UInt8) (rest : Document cs ss) :
    Document ((partLines program).toList ++ cs)
      (.element [Key.parts.text] :: ((partPairs program).map pairStatement ++ ss)) := by
  have htext : (partLines program).toList ++ cs
      = '\n' :: ('[' :: '[' :: (Key.parts.text.toList ++ [']', ']']) ++ '\n' ::
        ((program.elim "" fun p => pairLine .program (toString p)).toList ++ cs)) := by
    cases program <;> simp [partLines]
  rw [htext]
  refine .empty (.statement (isLine_element (isBare_text .parts)) ?_)
  cases program with
  | none => exact rest
  | some p =>
    have hlimit : p.toNat ≤ maxWord := (toNat_le_maxByte p).trans (by decide)
    exact document_pairLine (isValue_toString hlimit) rest

theorem document_programs (programs : List (Option UInt8)) :
    Document (String.join (programs.map partLines)).toList
      (elementStatements Key.parts.text (programs.map partPairs)) := by
  induction programs with
  | nil => exact .nil
  | cons program programs ih =>
    rw [List.map_cons, String.join_cons, String.toList_append]
    exact document_partLines program ih

end Lines

/-- The file of settings is a plain document. -/
theorem document_toToml {s : Settings} (h : s.check = .ok ()) :
    Document s.toToml.toList
      (s.pairs.map pairStatement ++
        elementStatements Key.parts.text (s.programs.map partPairs)) := by
  obtain ⟨ht, hf, -⟩ := check_eq_ok.mp h
  have hword : ∀ n : UInt32, IsValue (toString n).toList (.integer n.toNat) :=
    fun n => isValue_toString (toNat_le_maxWord n)
  have htext : s.toToml.toList = '#' :: (" Jird Configuration".toList ++ '\n' :: '\n' ::
      ((pairLine .t (s.t.format Binary64.general)).toList ++
      ((pairLine .f (s.f.format Binary64.general)).toList ++
      ((pairLine .tuningMethod ("\"" ++ s.tuningMethod.text ++ "\"")).toList ++
      ((pairLine .bendRange (toString s.bendRange)).toList ++
      ((s.divisions.elim "" fun d => pairLine .divisions (toString d)).toList ++
      ((pairLine .verbose (if s.verbose then "true" else "false")).toList ++
      (String.join (s.programs.map partLines)).toList))))))) := by
    have hcomment : "# Jird Configuration\n\n".toList
        = '#' :: (" Jird Configuration".toList ++ ['\n', '\n']) := by decide
    unfold toToml
    cases s.divisions <;>
      simp only [String.toList_append, List.append_assoc, hcomment, List.cons_append,
        List.nil_append, Option.elim_none, Option.elim_some]
  have hverbose := document_pairLine (k := .verbose) (isValue_boolean s.verbose)
    (document_programs s.programs)
  rw [htext, pairs]
  refine .comment (List.all_eq_true.mp rfl) (.empty ?_)
  refine document_pairLine (isValue_format ht) (document_pairLine (isValue_format hf) ?_)
  refine document_pairLine (isValue_method _) (document_pairLine (hword _) ?_)
  cases s.divisions with
  | none => exact hverbose
  | some d => exact document_pairLine (hword d) hverbose

/-- What is read from the file of settings. -/
theorem read_toToml {s : Settings} (h : s.check = .ok ()) :
    Toml.read s.toToml = some s.table := by
  have hfirst : s.toToml.toList.head? = some '#' := by
    unfold toToml
    simp
  have hparts : ∀ elements ∈ s.programs.map partPairs, (elements.map Prod.fst).Nodup := by
    rw [List.forall_mem_map]
    exact fun program _ => nodup_partPairs program
  have hdates : ∀ elements ∈ s.programs.map partPairs,
      ∀ p ∈ elements, p.1 ≠ dateKey ∧ p.2.withDates = some p.2 := by
    rw [List.forall_mem_map]
    exact fun program _ => withDates_partPairs program
  rw [read_of_document (document_toToml h) hfirst,
    tableOfStatements_written (nodup_pairs s) (parts_not_mem_pairs s) hparts, Option.bind_some,
    withDates_written (withDates_pairs s) hdates, table]

/-! ### Its layer -/

theorem wordOf_toNat (k : Key) (n : UInt32) : wordOf k (.integer n.toNat) = .ok n := by
  rw [wordOf, integerOf_natCast (toNat_le_maxWord n)]
  simp [Except.map]

theorem methodOf_text (m : Midi.TuningMethod) : methodOf (.string m.text) = .ok m := by
  cases m <;> rfl

theorem partOf_partPairs (program : Option UInt8) :
    partOf (.table (partPairs program)) = .ok program := by
  cases program with
  | none => rfl
  | some p =>
    have hentry : Table.find? "program" (partPairs (some p)) = some (.integer p.toNat) := rfl
    rw [partOf, hentry, optionally, integerOf_natCast (toNat_le_maxByte p)]
    simp [Except.map]

theorem partsOf_partPairs (programs : List (Option UInt8)) :
    partsOf (.array (programs.map fun p => .table (partPairs p))) = .ok programs := by
  rw [partsOf, mapM_eq_ok, List.forall₂_map_left_iff, List.forall₂_same]
  exact fun program _ => partOf_partPairs program

theorem find?_parts (s : Settings) :
    s.table.find? Key.parts.text = if s.programs = [] then none else
      some (.array (s.programs.map fun p => .table (partPairs p))) := by
  rw [table, written, pairs]
  simp only [List.map_eq_nil_iff, List.map_map]
  cases s.divisions <;> split_ifs <;> rfl

theorem find?_programs (s : Settings) : s.table.find? Key.programs.text = none := by
  rw [table, written, pairs]
  cases s.divisions <;> split_ifs <;> rfl

theorem find?_divisions (s : Settings) :
    s.table.find? Key.divisions.text = s.divisions.map fun d => .integer d.toNat := by
  rw [table, written, pairs]
  cases s.divisions <;> split_ifs <;> rfl

theorem find?_verbose (s : Settings) :
    s.table.find? Key.verbose.text = some (.boolean s.verbose) := by
  rw [table, written, pairs]
  cases s.divisions <;> rfl

/-- The layer that sets everything that settings have; it is silent on divisions and on parts if
there are none. -/
def layer (s : Settings) : Layer :=
  { t := s.t, f := s.f, tuningMethod := s.tuningMethod, bendRange := s.bendRange
    divisions := s.divisions, verbose := s.verbose
    programs := if s.programs = [] then none else some s.programs }

theorem ofTable_table (s : Settings) : Layer.ofTable s.table = .ok s.layer := by
  have ht : optionally (numberOf .t) (s.table.find? Key.t.text) = .ok (some s.t) := rfl
  have hf : optionally (numberOf .f) (s.table.find? Key.f.text) = .ok (some s.f) := rfl
  have hbendRange : optionally (wordOf .bendRange) (s.table.find? Key.bendRange.text)
      = .ok (some s.bendRange) := congrArg (Except.map some) (wordOf_toNat .bendRange s.bendRange)
  have hdivisions : optionally (wordOf .divisions) (s.table.find? Key.divisions.text)
      = .ok s.divisions := by
    rw [find?_divisions]
    cases s.divisions with
    | none => rfl
    | some d => exact congrArg (Except.map some) (wordOf_toNat .divisions d)
  have htuningMethod : optionally methodOf (s.table.find? Key.tuningMethod.text)
      = .ok (some s.tuningMethod) := congrArg (Except.map some) (methodOf_text s.tuningMethod)
  have hverbose : optionally booleanOf (s.table.find? Key.verbose.text)
      = .ok (some s.verbose) := by
    rw [find?_verbose]
    rfl
  simp only [Layer.ofTable, ht, hf, hbendRange, hdivisions, htuningMethod, hverbose, find?_parts,
    find?_programs]
  rw [layer]
  split_ifs
  · rfl
  · simp only [partsOf_partPairs]
    rfl

/-- What the layer is silent on is absent by default. -/
theorem layer_over (s : Settings) : s.layer.over {} = s := by
  obtain ⟨t, f, tuningMethod, bendRange, divisions, verbose, programs⟩ := s
  cases divisions <;> cases programs <;> rfl

/-! ### Loading -/

theorem load_toToml (path : String) {s : Settings} (h : s.check = .ok ()) :
    load [⟨path, .ok s.toToml⟩] (fun _ => none) = .ok (s, ⟨[path], []⟩) := by
  have hlayer : SourceFile.layer ⟨path, .ok s.toToml⟩ = .ok s.layer := by
    rw [SourceFile.layer, bind_eq_ok]
    refine ⟨s.toToml, rfl, ?_⟩
    rw [read_toToml h]
    exact ofTable_table s
  have hlayers : [SourceFile.mk path (.ok s.toToml)].mapM SourceFile.layer = .ok [s.layer] :=
    mapM_eq_ok.mpr (.cons hlayer .nil)
  have htop : Layer.ofEnvironment (fun _ => none) = .ok {} := rfl
  have hmerged : ([s.layer] ++ [({} : Layer)]).foldl (fun s (l : Layer) => l.over s) {} = s :=
    congrArg (Layer.over {}) (layer_over s)
  unfold load
  simp only [bind_eq_ok, pure_eq_ok]
  refine ⟨[s.layer], hlayers, {}, htop, (), ?_, ?_⟩
  · rw [hmerged, h]
  · rw [hmerged]
    rfl

variable {m : Type → Type} [Monad m] [LawfulMonad m]

/-- Settings that pass their check are what is loaded from the file that they are written to, if
no variable of the environment sets anything. -/
theorem loadFiles_toToml {a : Access m} {path : String} {s : Settings} (h : s.check = .ok ())
    (hread : a.read path = pure (.ok s.toToml))
    (henvironment : ∀ v : Variable, a.environment v.name = pure none) :
    loadFiles a [path] = pure (.ok (s, ⟨[path], []⟩)) := by
  have hsilent : (fun v : Variable =>
      ((Variable.all.map fun v => (v, (none : Option String))).lookup v).join) = fun _ => none := by
    funext v
    cases v <;> rfl
  have hloaded := load_toToml path h
  rw [← hsilent] at hloaded
  rw [← hloaded]
  simp [loadFiles, hread, henvironment, Variable.all]

/-- Settings with numbers in either form and parts of which one has no program. -/
def threeParts : Settings :=
  { t := .rounded false (1 / 30000), f := .rounded false (1000 / 3), tuningMethod := .pitchBend
    bendRange := 12, divisions := some 19, programs := [some 47, none, some 1] }

/-- A machine with one file and no variables. -/
def fileAlone (path text : String) : Access Id where
  read p := pure (if p = path then .ok text else .error .missing)
  write _ _ := pure (.error .denied)
  present p := pure (p = path)
  environment _ := pure none

theorem loadFiles_toToml_threeParts :
    threeParts.check = .ok () ∧
      loadFiles (fileAlone "jird.toml" threeParts.toToml) ["jird.toml"]
        = pure (.ok (threeParts, ⟨["jird.toml"], []⟩)) := by
  have hcheck : threeParts.check = .ok () := eq_ok_of_toOption (by decide +kernel)
  exact ⟨hcheck, loadFiles_toToml hcheck rfl fun _ => rfl⟩

example : threeParts.toToml = "# Jird Configuration

t = 3.3333333333333335e-5
f = 333.3333333333333
tuning_method = \"pitch_bend\"
pitch_bend_range = 12
edo = 19
verbose = false

[[parts]]
program = 47

[[parts]]

[[parts]]
program = 1
" := by decide +kernel

end JustIntonation.Settings
