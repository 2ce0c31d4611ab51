import AppAtlas.Query.Filter

/-! # Impact

Everything that can be reached from a node, layer by layer. The confidence of a node is the greatest
product of confidences over the walks that reach it. Without a bound on the hops it is found by
settling nodes in the order of their confidences; with a bound by as many rounds of improvement as
there are hops.
-/

namespace AppAtlas

structure ImpactEntry (κ : Type) where
  node : NodeId
  /-- The fewest hops in which it is reached. -/
  distance : Nat
  confidence : κ

/-- The nodes reached in equally many hops, by identity. -/
structure ImpactLayer (κ : Type) where
  distance : Nat
  nodes : List (ImpactEntry κ)

structure Impact (κ : Type) where
  origin : NodeId
  direction : Direction
  layers : List (ImpactLayer κ)

namespace Impact

variable {κ : Type}

def entries (i : Impact κ) : List (ImpactEntry κ) := i.layers.flatMap (·.nodes)

def size (i : Impact κ) : Nat := i.entries.length

variable [Confidence κ]

/-- Nodes with the best confidence found so far. -/
abbrev Confidences (κ : Type) := Std.ExtTreeMap NodeId κ compare

def improve (f : EdgeFilter κ) (best : Confidences κ) (id : NodeId) (c : κ) : Confidences κ :=
  if c < f.minConfidence then best
  else
    match best.get? id with
    | some held => if held < c then best.insert id c else best
    | none => best.insert id c

/-- The node to settle next: the one with the greatest confidence, the first by identity among
several. -/
def nextToSettle? (best : Confidences κ) (settled : Std.ExtTreeSet NodeId compare) :
    Option (NodeId × κ) :=
  match best.toList.filter fun (id, _) => !settled.contains id with
  | [] => none
  | first :: others => some (others.foldl (fun a b => if a.2 < b.2 then b else a) first)

def settle (g : Graph κ) (direction : Direction) (f : EdgeFilter κ) :
    Nat → Confidences κ → Std.ExtTreeSet NodeId compare → Confidences κ
  | 0, best, _ => best
  | steps + 1, best, settled =>
    match nextToSettle? best settled with
    | none => best
    | some (id, c) =>
      let settled := settled.insert id
      let reached := (g.neighbours direction f id).filter fun (next, _) => !settled.contains next
      settle g direction f steps
        (reached.foldl (fun best (next, e) => improve f best next (c * e.confidence)) best) settled

/-- The confidences after one more round: every walk found so far is continued by one edge. -/
def round (g : Graph κ) (direction : Direction) (f : EdgeFilter κ) (best : Confidences κ) :
    Confidences κ :=
  best.toList.foldl
    (fun all (id, c) =>
      (g.neighbours direction f id).foldl
        (fun all (next, e) => improve f all next (c * e.confidence)) all)
    best

/-- The confidences after a number of rounds, or as soon as a round changes nothing. -/
def rounds (g : Graph κ) (direction : Direction) (f : EdgeFilter κ) :
    Nat → Confidences κ → Confidences κ
  | 0, best => best
  | n + 1, best =>
    let next := round g direction f best
    if next = best then best else rounds g direction f n next

/-- The greatest confidences of all nodes that a filter lets be reached. -/
def confidences (g : Graph κ) (origin : NodeId) (direction : Direction) (f : EdgeFilter κ) :
    Confidences κ :=
  let start : Confidences κ := Std.ExtTreeMap.ofList [(origin, 1.0)] compare
  match f.maxDepth with
  | none => settle g direction f (g.hopLimit + 1) start ∅
  | some depth => rounds g direction f depth start

def layersOf (distances : Distances) (best : Confidences κ) : List (ImpactLayer κ) :=
  let reached := distances.toList.filter fun (_, d) => d != 0
  (sortedSet (reached.map (·.2))).map fun distance =>
    { distance := distance
      nodes := (reached.filter fun (_, d) => d == distance).filterMap fun (id, d) =>
        (best.get? id).map fun c => { node := id, distance := d, confidence := c } }

def of (g : Graph κ) (origin : NodeId) (direction : Direction) (f : EdgeFilter κ) :
    Except QueryError (Impact κ) :=
  if g.hasNode origin then
    let best := confidences g origin direction f
    let next := fun id =>
      ((g.neighbours direction f id).map (·.1)).filter fun id => best.contains id
    let distances := distancesFrom next (g.hops f.maxDepth) [origin]
    .ok { origin := origin, direction := direction, layers := layersOf distances best }
  else .error (.nodeNotFound origin)

end Impact

end AppAtlas
