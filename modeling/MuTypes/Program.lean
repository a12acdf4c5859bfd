import MuTypes.Typing.Rules

/-!
# Programs

A program declares aliases, annotations and expressions.  Its nodes are numbered as they are made, and the true places
of nodes can be noted at any time.  Nodes that occur several times in a program have one number, so all their
occurrences have the place that is noted for any of them.

The nodes keep their numbers.  As checking only copies spans, it is enough to look up the place of the one span in an
outcome, which gives the outcome of the program in which every node carries its true place (`typeOf`, `resolve`).
-/

namespace MuTypes

/-- The declarations of a program, each kind in its order, with numbers for spans. -/
structure Program where
  aliases : Aliases := []
  tyExprs : Array TyExpr := #[]
  exprs : Array Expr := #[]
  numbering : Numbering := {}

namespace Program

/-! ### Building -/

/-- Makes the node of an expression. -/
def makeExpr (term : Term) (p : Program) : Expr × Program :=
  let (span, numbering) := p.numbering.number
  (.mk span term, { p with numbering })

/-- Makes the node of an annotation. -/
def makeTyExpr (form : TyForm) (p : Program) : TyExpr × Program :=
  let (span, numbering) := p.numbering.number
  (.mk span form, { p with numbering })

/-- Notes the true place of a node or alias, which is known by its number. -/
def note (own place : Span) (p : Program) : Program :=
  { p with numbering := p.numbering.note own place }

/-- Declares an alias, which takes a number after its body; gives the number. -/
def declareAlias (name : Name) (params : Option (List Name)) (body : TyExpr) (p : Program) : Span × Program :=
  let (span, numbering) := p.numbering.number
  (span, { p with aliases := p.aliases ++ [{ name, params, body, span }], numbering })

/-- Declares an annotation. -/
def declareTyExpr (t : TyExpr) (p : Program) : Program :=
  { p with tyExprs := p.tyExprs.push t }

/-- Declares an expression. -/
def declareExpr (e : Expr) (p : Program) : Program :=
  { p with exprs := p.exprs.push e }

/-! ### Asking -/

/-- The true place of a node or alias, which is known by its number. -/
def place (p : Program) (own : Span) : Span :=
  p.numbering.place own

/-- The type of an expression under a policy, in an environment; a violation is shown at its true place. -/
def typeOf (p : Program) (policy : Policy) (env : Env) (e : Expr) : CheckM Ty :=
  (e.typeOf { aliases := p.aliases, policy } env).mapSpan p.place

/-- The type that an annotation means; a violation is shown at its true place. -/
def resolve (p : Program) (t : TyExpr) : CheckM Ty :=
  (t.resolve p.aliases []).mapSpan p.place

/-- The first alias of a name and its true place. -/
def alias? (p : Program) (name : Name) : Option (Alias × Span) :=
  (p.aliases.find? name).map fun a => (a, p.place a.span)

end Program

end MuTypes
