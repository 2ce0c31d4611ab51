import AppAtlas.Graph.Contribution

/-! # Outcomes

What became of each file of a batch.
-/

namespace AppAtlas

inductive FileStatus where
  | applied
  /-- It is the version whose contribution the graph holds. -/
  | unchanged
  /-- It was not in the batch and was resolved again, because something it had looked up changed. -/
  | reresolved
  | removed
  | skipped (reason : String)
  | failed (reason : String)
deriving DecidableEq, Repr

namespace FileStatus

def name : FileStatus → String
  | applied => "applied"
  | unchanged => "unchanged"
  | reresolved => "reresolved"
  | removed => "removed"
  | skipped _ => "skipped"
  | failed _ => "failed"

def reason? : FileStatus → Option String
  | skipped r => some r
  | failed r => some r
  | _ => none

end FileStatus

structure FileOutcome where
  path : String
  artifact : Option ArtifactKind
  status : FileStatus
  nodes : Nat := 0
  edges : Nat := 0
  /-- The number of parse problems. -/
  issues : Nat := 0
deriving DecidableEq, Repr

def FileOutcome.of {κ : Type} (c : Contribution κ) (f : FindingSet κ) (status : FileStatus) :
    FileOutcome where
  path := c.path
  artifact := some f.artifact
  status := status
  nodes := c.nodes.length
  edges := c.edges.length
  issues := f.issues.length

structure Summary where
  /-- The version of the graph after the batch. -/
  version : Nat
  files : List FileOutcome
  /-- Files that depend on what changed and could not be resolved again. -/
  needsReanalysis : List String
deriving DecidableEq, Repr

namespace Summary

def of (version : Nat) (files : List FileOutcome) (needsReanalysis : List String) : Summary where
  version := version
  files := files.mergeSort fun a b => (compare a.path b.path).isLE
  needsReanalysis := needsReanalysis

def count (s : Summary) (status : String) : Nat :=
  (s.files.filter fun f => f.status.name == status).length

def issues (s : Summary) : Nat := s.files.foldl (fun count f => count + f.issues) 0

def outcome? (s : Summary) (path : String) : Option FileOutcome := s.files.find? (·.path == path)

end Summary

end AppAtlas
