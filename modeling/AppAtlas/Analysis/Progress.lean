/-! # Progress

What a run of the analysis reports while it works, when it is to stop, and a bar that shows how far
it has come.

A run asks its *cancel token* at certain moments whether to stop. A moment is described by what has
happened before: how many stages were started and how often the token was asked. A token is the set
of moments at which it is set; once set, it stays set.
-/

namespace AppAtlas

inductive Event where
  | start (stage : String) (total : Option Nat)
  /-- A stage ends after a number of steps. -/
  | finish (steps : Nat)
  | message (text : String)
deriving DecidableEq, Repr

structure Moment where
  /-- How many stages were started. -/
  starts : Nat
  /-- How often the token was asked. -/
  asked : Nat
deriving DecidableEq, Repr

structure CancelToken where
  isSet : Moment → Bool
  stays : ∀ m m' : Moment, m.starts ≤ m'.starts → m.asked ≤ m'.asked → isSet m → isSet m'

namespace CancelToken

def never : CancelToken := ⟨fun _ => false, fun _ _ _ _ h => h⟩

def always : CancelToken := ⟨fun _ => true, fun _ _ _ _ h => h⟩

def fixed (isSet : Bool) : CancelToken := if isSet then always else never

/-- A token that is set when a number of stages have been started. -/
def onStart (n : Nat) : CancelToken where
  isSet m := n ≤ m.starts
  stays m m' h _ hm := by
    simp only [decide_eq_true_eq] at hm ⊢
    omega

end CancelToken

structure Run where
  moment : Moment := ⟨0, 0⟩
  events : List Event := []

namespace Run

def start (r : Run) (stage : String) (total : Nat) : Run where
  moment := { r.moment with starts := r.moment.starts + 1 }
  events := r.events ++ [.start stage (some total)]

def report (r : Run) (e : Event) : Run := { r with events := r.events ++ [e] }

def ask (r : Run) (token : CancelToken) : Bool × Run :=
  let moment := { r.moment with asked := r.moment.asked + 1 }
  (token.isSet moment, { r with moment := moment })

/-- The results of a step for each item until the token is set, and the run after that. -/
def steps {α β : Type} (r : Run) (token : CancelToken) (work : α → β) (items : List α) :
    List β × Run :=
  items.foldl
    (fun (done, r) item =>
      let (stop, r) := r.ask token
      (if stop then done else done ++ [work item], r))
    ([], r)

/-- A stage: a step for each item. A stage during which the token was set has no results. -/
def stage {α β : Type} (r : Run) (token : CancelToken) (name : String) (work : α → β)
    (items : List α) : Option (List β) × Run :=
  let (done, r) := (r.start name items.length).steps token work items
  let (stop, r) := (r.report (.finish done.length)).ask token
  (if stop then none else some done, r)

end Run

/-! ### The bar -/

/-- A bar that shows how far a stage has come. -/
structure ProgressBar where
  position : Nat := 0
  length : Nat := 0
deriving DecidableEq, Repr

namespace ProgressBar

def start (total : Option Nat) : ProgressBar := ⟨0, total.getD 0⟩

/-- The bar some steps further. Positions are numbers of 64 bits. -/
def advance (b : ProgressBar) (amount : Nat) : ProgressBar :=
  { b with position := (b.position + amount) % Nat.pow 2 64 }

def finish (b : ProgressBar) : ProgressBar := { b with position := b.length }

end ProgressBar

end AppAtlas
