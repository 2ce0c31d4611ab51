import AppAtlas.Proofs.Sql.Redrawn

/-!
# Outlines of statements

In the outline of a statement all is blank that the walk does not look at: the places of tokens, and
the texts of literals, parameters and operators.  The walk goes the same way over the outline, so
what it finds there is what it finds in the statement, places aside.

* `outlining`: outlines are a way to redraw tokens.
* `tables_eq_of_outline_eq`: statements with the same outline use the same tables.
-/

namespace AppAtlas.Sql

/-- A token without its place, and without a text that the walk does not look at. -/
def Token.outline (t : Token) : Token :=
  { t with text := if t.isRead then t.text else "", line := 0 }

def TableUse.outline (u : TableUse) : TableUse :=
  { u with line := 0 }

def outlining : Redrawing where
  token := Token.outline
  line _ := 0
  sort_token _ := rfl
  dynamic_token _ := rfl
  line_token _ := rfl
  lowerText_token t h := by simp [Token.lowerText, Token.outline, h]

theorem map_distinctOn {α β : Type} [DecidableEq β] (key : α → β) {f : α → α}
    (h : ∀ a, key (f a) = key a) (as : List α) :
    (distinctOn key as).map f = distinctOn key (as.map f) := by
  induction as with
  | nil => rfl
  | cons a as ih =>
    rw [List.map_cons, distinctOn, distinctOn, List.map_cons, ← ih, List.filter_map]
    simp [h, Function.comp_def]

/-- **Statements with the same outline use the same tables.** -/
theorem tables_eq_of_outline_eq {a b : String}
    (h : (tokenize a).tokens.map Token.outline = (tokenize b).tokens.map Token.outline) :
    (analyze a).tables.map TableUse.outline = (analyze b).tables.map TableUse.outline := by
  have htables : ∀ s, (analyze s).tables.map TableUse.outline =
      distinctOn (fun t => (t.name, t.access))
        (walkTokens ((tokenize s).tokens.map Token.outline)).tables := by
    intro s
    have hwalk := redrawn_walkTokens outlining (tokenize s).tokens
    rw [show outlining.token = Token.outline from rfl] at hwalk
    rw [hwalk]
    exact map_distinctOn (fun t => (t.name, t.access)) (f := TableUse.outline)
      (fun _ => rfl) _
  rw [htables a, htables b, h]

end AppAtlas.Sql
