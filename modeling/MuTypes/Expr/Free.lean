import MuTypes.Expr.Basic

/-!
# Free variables of expressions

Whether a variable occurs free in an expression.  A variable occurs where it is read, where it is assigned and where it
is dispatched on.  Parameters are bound in the body of their function, a function with a name also in its own body and
in the rest, a constant in the rest, and the name of a loop in the body of the loop only.
-/

namespace MuTypes.Expr

mutual

/-- Does the variable occur free in the expression? -/
def mentions (x : Name) : Expr → Bool
  | .mk _ t => mentionsTerm x t

/-- Does the variable occur free in what stands somewhere? -/
def mentionsTerm (x : Name) : Term → Bool
  | .lit _ | .emptyArray _ | .emptyMap _ => false
  | .not e | .copyMap e | .property e _ | .widen e _ | .generic _ e | .instantiate e _ => e.mentions x
  | .compare _ l r | .add l r | .seq l r | .append l r | .hasKey l r | .index l r => l.mentions x || r.mentions x
  | .cond a b c | .insert a b c => a.mentions x || b.mentions x || c.mentions x
  | .var y => y = x
  | .lambda ps _ b => x ∉ ps.map Prod.fst && b.mentions x
  | .call c es => c.mentions x || mentionsArgs x es
  | .bind y v r => v.mentions x || (y ≠ x && r.mentions x)
  | .assign y v => y = x || v.mentions x
  | .forIndex a y b r | .forItem a y b r => a.mentions x || (y ≠ x && b.mentions x) || r.mentions x
  | .object is | .variant _ is _ => mentionsNamed x is
  | .dispatch y cs none => y = x || mentionsNamed x cs
  | .dispatch y cs (some e) => y = x || mentionsNamed x cs || e.mentions x
  | .function f ps _ b r => (f ≠ x && x ∉ ps.map Prod.fst && b.mentions x) || (f ≠ x && r.mentions x)

/-- Does the variable occur free in an argument? -/
def mentionsArgs (x : Name) : List Expr → Bool
  | [] => false
  | e :: es => e.mentions x || mentionsArgs x es

/-- Does the variable occur free in one of the named expressions? -/
def mentionsNamed (x : Name) : List (Name × Expr) → Bool
  | [] => false
  | (_, e) :: es => e.mentions x || mentionsNamed x es

end

end MuTypes.Expr
