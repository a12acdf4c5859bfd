import MuTypes.Ty.Basic

/-!
# Environments

An environment gives types to variables.  Binding a variable makes a new one, and the latest binding of a name counts.
-/

namespace MuTypes

/-- Variables with their types, the latest first. -/
structure Env where
  bindings : List (Name × Ty) := []

namespace Env

/-- The environment without variables. -/
def empty : Env := {}

/-- Binds one more variable. -/
def bind (env : Env) (name : Name) (ty : Ty) : Env :=
  ⟨(name, ty) :: env.bindings⟩

/-- Binds several variables, in order. -/
def bindAll (env : Env) (row : List (Name × Ty)) : Env :=
  row.foldl (fun env p => env.bind p.1 p.2) env

/-- The type of a variable, if it is bound. -/
def find? (env : Env) (name : Name) : Option Ty :=
  env.bindings.lookup name

@[simp] theorem find?_empty (n : Name) : empty.find? n = none := rfl

theorem find?_bind (env : Env) (n m : Name) (t : Ty) :
    (env.bind n t).find? m = if m = n then some t else env.find? m := by
  by_cases h : m = n
  · simp [find?, bind, h]
  · simp [find?, bind, List.lookup_cons, beq_false_of_ne h, h]

@[simp] theorem find?_bind_self (env : Env) (n : Name) (t : Ty) : (env.bind n t).find? n = some t := by
  simp [find?_bind]

theorem find?_bind_of_ne (env : Env) {n m : Name} (t : Ty) (h : m ≠ n) :
    (env.bind n t).find? m = env.find? m := by
  simp [find?_bind, h]

@[simp] theorem bindAll_nil (env : Env) : env.bindAll [] = env := rfl

@[simp] theorem bindAll_cons (env : Env) (p : Name × Ty) (row : List (Name × Ty)) :
    env.bindAll (p :: row) = (env.bind p.1 p.2).bindAll row := rfl

end Env

end MuTypes
