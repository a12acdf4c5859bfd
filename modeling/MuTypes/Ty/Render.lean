import MuTypes.Ty.Basic

/-!
# The text of a type

Types are written as TypeScript writes them, with `(mu X. T)` for recursive types and `<X, Y>T` for generic ones.
Options, unions and recursive types bring their own parentheses; the element of an array gets them when it is a
function or a generic type, since those extend to the right as far as they can.
-/

namespace MuTypes

/-- The keyword of a primitive type. -/
def Prim.text : Prim → String
  | .boolean => "boolean"
  | .number => "number"
  | .string => "string"
  | .undefined => "undefined"

namespace Ty

/-- Does the text of the type extend to the right as far as it can? -/
def extendsRight : Ty → Bool
  | .func .. | .generic .. => true
  | _ => false

/-- Properties between braces. -/
def braced (properties : List String) : String :=
  "\x7b " ++ "; ".intercalate properties ++ " \x7d"

mutual

/-- The text of a type. -/
def render : Ty → String
  | .prim p => p.text
  | .option e => "(" ++ e.render ++ " | undefined)"
  | .array e => if e.extendsRight then "(" ++ e.render ++ ")[]" else e.render ++ "[]"
  | .map e => "Record<string, " ++ e.render ++ ">"
  | .func ps r => "(" ++ ", ".intercalate (rowTexts ps) ++ ") => " ++ r.render
  | .object [] => "\x7b\x7d"
  | .object ps => braced (rowTexts ps)
  | .union [] => "never"
  | .union vs => "(" ++ " | ".intercalate (variantTexts vs) ++ ")"
  | .mu n b => "(mu " ++ n ++ ". " ++ b.render ++ ")"
  | .generic ns b => "<" ++ ", ".intercalate ns ++ ">" ++ b.render
  | .var n => n

/-- `name: type` for each entry of a row. -/
def rowTexts : Row → List String
  | [] => []
  | (n, t) :: ps => (n ++ ": " ++ t.render) :: rowTexts ps

/-- Each variant as an object whose first property is the tag. -/
def variantTexts : Variants → List String
  | [] => []
  | (l, ps) :: vs => braced (("tag: \"" ++ l ++ "\"") :: rowTexts ps) :: variantTexts vs

end

instance : ToString Ty := ⟨render⟩

end Ty

end MuTypes
