import AppAtlas.Extract.Options
import AppAtlas.Query.Cycles
import AppAtlas.Resolve.Options
import AppAtlas.Settings.Glob

/-! # Settings

What can be set for the analysis of a project, the values in use unless others are given, and the
ranges in which values have to lie.
-/

namespace AppAtlas

structure QuerySettings (κ : Type) where
  maxCycleLength : Nat
  maxCycles : Nat
  /-- The bound on hops of an impact analysis. -/
  impactDepth : Option Nat
  minConfidence : κ
deriving DecidableEq

structure ExtractionSettings (κ : Type) where
  /-- If there are any, only paths that one of them accepts are analysed. -/
  includePatterns : List String
  /-- Paths that one of them accepts are not analysed. -/
  excludePatterns : List String
  confidence : Extract.Options κ
deriving DecidableEq

inductive SaveFormat where
  | json
  | sqlite
deriving DecidableEq, Repr

namespace SaveFormat

def name : SaveFormat → String
  | json => "json"
  | sqlite => "sqlite"

def ofName? (s : String) : Option SaveFormat := [json, sqlite].find? (·.name == s)

end SaveFormat

structure SaveSettings where
  format : SaveFormat
  /-- The file, relative to the project. -/
  path : String
deriving DecidableEq, Repr

structure Settings (κ : Type) where
  resolver : ResolverOptions κ
  query : QuerySettings κ
  extraction : ExtractionSettings κ
  saving : SaveSettings
deriving DecidableEq

/-! ### Values in use unless others are given -/

def QuerySettings.standard {κ : Type} [Confidence κ] : QuerySettings κ where
  maxCycleLength := 8
  maxCycles := 1000
  impactDepth := none
  minConfidence := 0.0

def ExtractionSettings.standard {κ : Type} [Confidence κ] : ExtractionSettings κ where
  includePatterns := []
  excludePatterns := ["**/node_modules/**", "**/target/**", "**/build/**", "**/.git/**"]
  confidence := .standard

def SaveSettings.standard : SaveSettings := ⟨.json, ".layermap/graph.json"⟩

def Settings.standard {κ : Type} [Confidence κ] : Settings κ where
  resolver := .standard
  query := .standard
  extraction := .standard
  saving := .standard

def QuerySettings.cycleLimits {κ : Type} (q : QuerySettings κ) : CycleLimits :=
  ⟨q.maxCycleLength, q.maxCycles⟩

def QuerySettings.edgeFilter {κ : Type} (q : QuerySettings κ) : EdgeFilter κ :=
  ⟨none, q.impactDepth, q.minConfidence⟩

/-! ### Ranges -/

inductive SettingsFault (κ : Type) where
  | outsideUnit (name : String) (value : κ)
  | ambiguityCap
  | cycleLength
  | cycleCount
  | minConfidence
  | pattern (text : String) (error : Glob.Error)
deriving DecidableEq

def SettingsFault.message {κ : Type} [Confidence κ] : SettingsFault κ → String
  | outsideUnit name value => name ++ " must be within (0, 1], got " ++ Confidence.text value
  | ambiguityCap => "resolver.ambiguity_cap must be below 0.5"
  | cycleLength => "query.max_cycle_length must be at least 1"
  | cycleCount => "query.max_cycles must be positive"
  | minConfidence => "query.min_confidence must be within [0, 1]"
  | pattern text error => "glob " ++ Text.quoted text ++ ": " ++ error.message

inductive SettingsError (κ : Type) where
  | missing
  | unreadable
  | invalid (fault : SettingsFault κ)
deriving DecidableEq

namespace Settings

variable {κ : Type} [Confidence κ]

def unitFault? (entry : String × κ) : Option (SettingsFault κ) :=
  if Confidence.isUnit entry.2 then none else some (.outsideUnit entry.1 entry.2)

def resolverUnits (s : Settings κ) : List (String × κ) :=
  [("resolver.name_match_weight", s.resolver.nameWeight),
    ("resolver.fuzzy_match_weight", s.resolver.fuzzyWeight),
    ("resolver.min_fuzzy_similarity", s.resolver.minSimilarity),
    ("resolver.stub_confidence_cap", s.resolver.stubCap),
    ("resolver.ambiguity_cap", s.resolver.ambiguityCap)]

def extractionUnits (s : Settings κ) : List (String × κ) :=
  let c := s.extraction.confidence
  [("extraction.confidence.dynamic_sql_penalty", c.dynamicSqlPenalty),
    ("extraction.confidence.min_dynamic_confidence", c.minDynamicConfidence),
    ("extraction.confidence.reflection_confidence", c.reflectionConfidence),
    ("extraction.confidence.dynamic_url_confidence", c.dynamicUrlConfidence),
    ("extraction.confidence.statement_call_confidence", c.statementCallConfidence),
    ("extraction.confidence.unknown_receiver_confidence", c.unknownReceiverConfidence)]

def queryFault? (q : QuerySettings κ) : Option (SettingsFault κ) :=
  if q.maxCycleLength = 0 then some .cycleLength
  else if q.maxCycles = 0 then some .cycleCount
  else if 0.0 ≤ q.minConfidence ∧ q.minConfidence ≤ 1.0 then none
  else some .minConfidence

def patternFault? (text : String) : Option (SettingsFault κ) :=
  match Glob.parse text with
  | .ok _ => none
  | .error e => some (.pattern text e)

def fault? (s : Settings κ) : Option (SettingsFault κ) :=
  s.resolverUnits.findSome? unitFault?
    <|> (if (0.5 : κ) ≤ s.resolver.ambiguityCap then some .ambiguityCap else none)
    <|> queryFault? s.query
    <|> s.extractionUnits.findSome? unitFault?
    <|> (s.extraction.includePatterns ++ s.extraction.excludePatterns).findSome? patternFault?

def checked (s : Settings κ) : Except (SettingsError κ) (Settings κ) :=
  match s.fault? with
  | some f => .error (.invalid f)
  | none => .ok s

def patternAccepts (path text : String) : Bool := (Glob.parse text).toOption.any (·.accepts path)

def admits (s : Settings κ) (path : String) : Bool :=
  let inc := s.extraction.includePatterns
  (inc.isEmpty || inc.any (patternAccepts path))
    && !s.extraction.excludePatterns.any (patternAccepts path)

end Settings

end AppAtlas
