import AppAtlas.Settings.Basic
import AppAtlas.Toml.Reader

/-! # The settings file

Settings are kept in a TOML file with one section for each part. Sections and values that are not
given have their standard values, and names that are not known are passed over.
-/

namespace AppAtlas

/-! ### Reading -/

namespace Settings

open Toml

def named? {α : Type} (ofName? : String → Option α) (v : Value) : Option α :=
  v.constant?.bind ofName?

def resolver? (v : Value) : Option (ResolverOptions Float) := do
  let entries ← v.fields? ["name_match_weight", "fuzzy_match_weight", "min_fuzzy_similarity",
    "ambiguity_cap", "stub_confidence_cap", "tie_break"]
  let d : ResolverOptions Float := .standard
  pure
    { nameWeight := ← field entries "name_match_weight" d.nameWeight Value.float?
      fuzzyWeight := ← field entries "fuzzy_match_weight" d.fuzzyWeight Value.float?
      minSimilarity := ← field entries "min_fuzzy_similarity" d.minSimilarity Value.float?
      ambiguityCap := ← field entries "ambiguity_cap" d.ambiguityCap Value.float?
      stubCap := ← field entries "stub_confidence_cap" d.stubCap Value.float?
      tieBreak := ← field entries "tie_break" d.tieBreak (named? TieBreak.ofName?) }

def query? (v : Value) : Option (QuerySettings Float) := do
  let entries ← v.fields? ["max_cycle_length", "max_cycles", "impact_depth", "min_confidence"]
  let d : QuerySettings Float := .standard
  pure
    { maxCycleLength := ← field entries "max_cycle_length" d.maxCycleLength Value.natural?
      maxCycles := ← field entries "max_cycles" d.maxCycles Value.natural?
      impactDepth := ← field entries "impact_depth" d.impactDepth fun v => v.natural?.map some
      minConfidence := ← field entries "min_confidence" d.minConfidence Value.float? }

def confidence? (v : Value) : Option (Extract.Options Float) := do
  let entries ← v.fields? ["dynamic_sql_penalty", "min_dynamic_confidence", "reflection_confidence",
    "dynamic_url_confidence", "statement_call_confidence", "unknown_receiver_confidence"]
  let d : Extract.Options Float := .standard
  let value := fun name standard => field entries name standard Value.float?
  pure
    { dynamicSqlPenalty := ← value "dynamic_sql_penalty" d.dynamicSqlPenalty
      minDynamicConfidence := ← value "min_dynamic_confidence" d.minDynamicConfidence
      reflectionConfidence := ← value "reflection_confidence" d.reflectionConfidence
      dynamicUrlConfidence := ← value "dynamic_url_confidence" d.dynamicUrlConfidence
      statementCallConfidence := ← value "statement_call_confidence" d.statementCallConfidence
      unknownReceiverConfidence := ←
        value "unknown_receiver_confidence" d.unknownReceiverConfidence }

def extraction? (v : Value) : Option (ExtractionSettings Float) := do
  let entries ← v.fields? ["include_patterns", "exclude_patterns", "confidence"]
  let d : ExtractionSettings Float := .standard
  pure
    { includePatterns := ← field entries "include_patterns" d.includePatterns Value.strings?
      excludePatterns := ← field entries "exclude_patterns" d.excludePatterns Value.strings?
      confidence := ← field entries "confidence" d.confidence confidence? }

def saving? (v : Value) : Option SaveSettings := do
  let entries ← v.fields? ["format", "path"]
  let d := SaveSettings.standard
  pure
    { format := ← field entries "format" d.format (named? SaveFormat.ofName?)
      path := ← field entries "path" d.path Value.string? }

def ofEntries? (entries : Entries) : Option (Settings Float) := do
  pure
    { resolver := ← field entries "resolver" .standard resolver?
      query := ← field entries "query" .standard query?
      extraction := ← field entries "extraction" .standard extraction?
      saving := ← field entries "persistence" .standard saving? }

def parse (text : String) : Except (SettingsError Float) (Settings Float) :=
  match (Toml.parse text).bind ofEntries? with
  | some s => s.checked
  | none => .error .unreadable

/-- The settings of a project's file. Without a file they are the standard ones, unless the file is
required. -/
def load (text : Option String) (required : Bool) : Except (SettingsError Float) (Settings Float) :=
  match text with
  | some t => parse t
  | none => if required then .error .missing else .ok .standard

end Settings

/-! ### Writing -/

namespace Settings

def escapedChar (c : Char) : List Char :=
  if c = '"' ∨ c = '\\' then ['\\', c]
  else if Toml.isPlain c then [c]
  else
    let digits := Text.hexDigits c.toNat
    ['\\', 'u'] ++ List.replicate (4 - digits.length) '0' ++ digits

def renderString (s : String) : String :=
  String.ofList ('"' :: s.toList.flatMap escapedChar ++ ['"'])

/-- A number; whole ones show that they are doubles. -/
def renderFloat (x : Float) : String :=
  let text := Decimal.plain x
  if text.toList.all fun c => c.isDigit || c == '-' then text ++ ".0" else Text.lowerString text

def renderStrings (ss : List String) : String :=
  "[" ++ ", ".intercalate (ss.map renderString) ++ "]"

def renderSection (name : String) (lines : List (String × String)) : String :=
  "[" ++ name ++ "]\n" ++ String.join (lines.map fun (k, v) => k ++ " = " ++ v ++ "\n") ++ "\n"

def render (s : Settings Float) : String :=
  let r := s.resolver
  let q := s.query
  let c := s.extraction.confidence
  renderSection "resolver"
      [("name_match_weight", renderFloat r.nameWeight),
        ("fuzzy_match_weight", renderFloat r.fuzzyWeight),
        ("min_fuzzy_similarity", renderFloat r.minSimilarity),
        ("ambiguity_cap", renderFloat r.ambiguityCap),
        ("stub_confidence_cap", renderFloat r.stubCap),
        ("tie_break", renderString r.tieBreak.name)]
    ++ renderSection "query"
      ([("max_cycle_length", toString q.maxCycleLength), ("max_cycles", toString q.maxCycles)]
        ++ (q.impactDepth.map fun d => ("impact_depth", toString d)).toList
        ++ [("min_confidence", renderFloat q.minConfidence)])
    ++ renderSection "extraction"
      [("include_patterns", renderStrings s.extraction.includePatterns),
        ("exclude_patterns", renderStrings s.extraction.excludePatterns)]
    ++ renderSection "extraction.confidence"
      [("dynamic_sql_penalty", renderFloat c.dynamicSqlPenalty),
        ("min_dynamic_confidence", renderFloat c.minDynamicConfidence),
        ("reflection_confidence", renderFloat c.reflectionConfidence),
        ("dynamic_url_confidence", renderFloat c.dynamicUrlConfidence),
        ("statement_call_confidence", renderFloat c.statementCallConfidence),
        ("unknown_receiver_confidence", renderFloat c.unknownReceiverConfidence)]
    ++ renderSection "persistence"
      [("format", renderString s.saving.format.name), ("path", renderString s.saving.path)]

/-- Whether settings are read back from the text they are written to. -/
def roundTrips (s : Settings Float) : Bool := (parse s.render).toOption == some s

end Settings

end AppAtlas
