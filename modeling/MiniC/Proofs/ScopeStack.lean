/-!
# Stacks of scopes

What is declared in the scopes that are open at some point of a program. What a declaration is made
of depends on who asks: the type of a name, the number of a name, or a whole variable.
-/

namespace MiniC

/-- The declarations of the open scopes, one list for each scope, the innermost first. -/
abbrev ScopeStack (α : Type) := List (List α)

namespace ScopeStack

variable {α β : Type}

/-- `a` declared in the innermost scope. -/
def declare (Γ : ScopeStack α) (a : α) : ScopeStack α :=
  match Γ with
  | [] => []
  | scope :: outer => (a :: scope) :: outer

/-- Several declarations in the innermost scope, in their order. -/
def declareAll (Γ : ScopeStack α) (as : List α) : ScopeStack α := as.foldl declare Γ

/-- What the innermost declaration of a name says. -/
def find? (Γ : ScopeStack (String × α)) (x : String) : Option α := Γ.findSome? (·.lookup x)

/-- The same declarations, made of something else. -/
def mapEntries (f : α → β) (Γ : ScopeStack α) : ScopeStack β := List.map (List.map f) Γ

theorem tail_declare (Γ : ScopeStack α) (a : α) : (Γ.declare a).tail = Γ.tail := by
  cases Γ <;> rfl

/-- Declarations open no scope, and close none. -/
theorem tail_declareAll (Γ : ScopeStack α) (as : List α) : (Γ.declareAll as).tail = Γ.tail := by
  induction as generalizing Γ with
  | nil => rfl
  | cons a as ih => exact (ih (Γ.declare a)).trans (Γ.tail_declare a)

theorem mapEntries_declare (f : α → β) (Γ : ScopeStack α) (a : α) :
    (Γ.declare a).mapEntries f = (Γ.mapEntries f).declare (f a) := by
  cases Γ <;> rfl

theorem mapEntries_declareAll (f : α → β) (Γ : ScopeStack α) (as : List α) :
    (Γ.declareAll as).mapEntries f = (Γ.mapEntries f).declareAll (as.map f) := by
  induction as generalizing Γ with
  | nil => rfl
  | cons a as ih =>
    refine (ih (Γ.declare a)).trans ?_
    rw [mapEntries_declare]
    rfl

end ScopeStack

end MiniC
