import AppAtlas.Confidence

/-! # Options of the resolver

How much confidence is left to a reference whose target was found by something less than its
identity, or not at all, and which of several equally good targets is taken.
-/

namespace AppAtlas

/-- How a choice is made among targets that match equally well. Those in the scope of the reference
come first either way. -/
inductive TieBreak where
  /-- The newest target, then the first by signature. -/
  | recency
  | lexical
deriving DecidableEq, Repr

namespace TieBreak

def name : TieBreak → String
  | recency => "scope_then_recency"
  | lexical => "scope_then_lexical"

def ofName? (s : String) : Option TieBreak := [recency, lexical].find? (·.name == s)

end TieBreak

structure ResolverOptions (κ : Type) where
  nameWeight : κ
  fuzzyWeight : κ
  minSimilarity : κ
  ambiguityCap : κ
  /-- The greatest confidence of a reference without a target. -/
  stubCap : κ
  tieBreak : TieBreak
deriving DecidableEq

def ResolverOptions.standard {κ : Type} [Confidence κ] : ResolverOptions κ where
  nameWeight := 0.8
  fuzzyWeight := 0.5
  minSimilarity := 0.3
  ambiguityCap := 0.45
  stubCap := 0.4
  tieBreak := .recency

end AppAtlas
