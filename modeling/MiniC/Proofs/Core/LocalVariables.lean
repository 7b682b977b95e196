import MiniC.Proofs.Core.CodeFunction
import MiniC.Proofs.Core.Faithful

/-!
# Where variables live

The text of a function says by itself which declaration each of its names refers to. Declarations
are numbered in the order of the text, parameters first, and a name refers to the innermost
declaration in sight. So the text has a list of uses, in the order in which they are evaluated, and
this order is not that of the text: the step of a `for` comes behind the body.

The method of the function has one load or store for each use, with the slot and the type of the
declaration it refers to, and every declaration has words of its own.
-/

namespace MiniC

/-! ## Names in the text -/

namespace Outline

/-- The declarations in sight, by number. -/
abbrev Scopes := ScopeStack (String × VarId)

/-- What a statement declares in the scope where it stands. -/
def Stmt.declarations : Stmt → List (Ty × String)
  | .declare vars => vars
  | .init ty x _ => [(ty, x)]
  | _ => []

/-- Declarations that are numbered from `n` on. -/
def numbered (n : Nat) : List (Ty × String) → List (String × VarId)
  | [] => []
  | (_, x) :: vars => (x, ⟨n⟩) :: numbered (n + 1) vars

/-- What is in sight behind a statement, if the next declaration has the number `n`. -/
def Scopes.after (Γ : Scopes) (n : Nat) (s : Stmt) : Scopes :=
  Γ.declareAll (numbered n s.declarations)

mutual

/-- All variables that a statement declares, in the order of the text. -/
def Stmt.declared : Stmt → List (Ty × String)
  | .declare vars => vars
  | .init ty x _ => [(ty, x)]
  | .expr _ | .ret _ => []
  | .block body => declaredIn body
  | .whileLoop _ body | .forLoop _ _ _ body => body.declared
  | .ifThen _ thenBranch => thenBranch.declared
  | .ifElse _ thenBranch elseBranch => thenBranch.declared ++ elseBranch.declared

def declaredIn : List Stmt → List (Ty × String)
  | [] => []
  | s :: ss => s.declared ++ declaredIn ss

end

inductive Access where
  | read
  | write
deriving Repr, DecidableEq

/-- A name where it is used, with the declarations in sight. -/
structure Use where
  access : Access
  name : String
  scopes : Scopes
deriving Repr, DecidableEq

mutual

/-- The uses of variables in an expression, in the order of evaluation. -/
def Expr.uses (Γ : Scopes) : Expr → List Use
  | .const _ => []
  | .var x => [⟨.read, x, Γ⟩]
  | .assign x e => e.uses Γ ++ [⟨.write, x, Γ⟩]
  | .call _ args => usesOfArgs Γ args
  | .binary _ left right => left.uses Γ ++ right.uses Γ
  | .step _ x => [⟨.read, x, Γ⟩, ⟨.write, x, Γ⟩]
  | .negate e => e.uses Γ

def usesOfArgs (Γ : Scopes) : List Expr → List Use
  | [] => []
  | e :: es => e.uses Γ ++ usesOfArgs Γ es

end

def optionalUses (Γ : Scopes) : Option Expr → List Use
  | none => []
  | some e => e.uses Γ

mutual

/-- The uses of variables in a statement whose first declaration has the number `n`. Bodies and
branches have scopes of their own. -/
def Stmt.uses (Γ : Scopes) (n : Nat) : Stmt → List Use
  | .declare _ => []
  | .init _ x e => e.uses Γ ++ [⟨.write, x, Γ.declare (x, ⟨n⟩)⟩]
  | .expr e => e.uses Γ
  | .ret value => optionalUses Γ value
  | .block body => usesOfBlock ([] :: Γ) n body
  | .whileLoop c body => c.uses Γ ++ body.uses ([] :: Γ) n
  | .forLoop init c step body =>
    optionalUses Γ init ++ optionalUses Γ c ++ body.uses ([] :: Γ) n ++ optionalUses Γ step
  | .ifThen c thenBranch => c.uses Γ ++ thenBranch.uses ([] :: Γ) n
  | .ifElse c thenBranch elseBranch =>
    c.uses Γ ++ thenBranch.uses ([] :: Γ) n ++
      elseBranch.uses ([] :: Γ) (n + thenBranch.declared.length)

def usesOfBlock (Γ : Scopes) (n : Nat) : List Stmt → List Use
  | [] => []
  | s :: ss => s.uses Γ n ++ usesOfBlock (Γ.after n s) (n + s.declared.length) ss

end

namespace Function

/-- All variables of a function, by number. -/
def declared (f : Function) : List (Ty × String) := f.params ++ declaredIn f.body

/-- All uses of variables in a function. The parameters and the body share one scope. -/
def uses (f : Function) : List Use :=
  usesOfBlock (ScopeStack.declareAll [[]] (numbered 0 f.params)) f.params.length f.body

end Function

end Outline

/-! ## Loads and stores -/

namespace Jvm

/-- Does the instruction use a local variable? -/
def Instruction.isAccess : Instruction → Bool
  | load _ _ | store _ _ => true
  | _ => false

/-- The loads and stores of the code, in order. -/
def accesses (c : List Instruction) : List Instruction := c.filter Instruction.isAccess

theorem accesses_append (c d : List Instruction) :
    accesses (c ++ d) = accesses c ++ accesses d := List.filter_append ..

/-- The head of a method as it is printed. -/
theorem Method.exists_text (m : Method) : ∃ body, m.text =
    ".method public static " ++ m.spec ++ "\n" ++ "    .limit locals " ++ toString m.locals ++
      "\n" ++ body := by
  have hassoc (x a b c d e : String) :
      x ++ a ++ b ++ c ++ d ++ e = x ++ (a ++ b ++ c ++ d ++ e) := by
    simp only [String.append_assoc]
  exact ⟨_, hassoc ..⟩

end Jvm

namespace Outline

open Jvm

def Access.instruction : Access → Ty → Nat → Instruction
  | read => .load
  | write => .store

/-- The instruction does what the use asks for: it accesses the slot of the declaration that the
name refers to, with the declared type. -/
def Use.DoneBy (declared : List (Ty × String)) (slot : VarId → Nat) (u : Use) (i : Instruction) :
    Prop :=
  ∃ v ty, u.scopes.find? u.name = some v ∧ declared[v.index]? = some (ty, u.name) ∧
    i = u.access.instruction ty (slot v)

/-- The method keeps the variables of the function apart. -/
structure Function.LaidOut (f : Function) (slot : VarId → Nat) (m : Method) : Prop where
  /-- Every variable has its slot. -/
  reserved : ∀ v : VarId, v.index < f.declared.length → m.slot? v = some (slot v)
  /-- The parameters are where a caller puts the arguments, one behind the other. -/
  params : ∀ v : VarId, v.index < f.params.length →
    slot v = wordsOf ((f.params.take v.index).map Prod.fst)
  /-- No two variables share a word. -/
  apart : ∀ v w a b, v ≠ w → f.declared[v.index]? = some a → f.declared[w.index]? = some b →
    slot v + a.1.words ≤ slot w ∨ slot w + b.1.words ≤ slot v
  below : ∀ v a, f.declared[v.index]? = some a → slot v + a.1.words ≤ m.locals
  locals : m.locals = wordsOf (f.declared.map Prod.fst)
  /-- What is printed above the body. -/
  printed : ∃ body, m.text =
    ".method public static " ++ (f.name ++ Signature.descriptor ⟨f.ret, f.params.map Prod.fst⟩) ++
      "\n" ++ "    .limit locals " ++ toString m.locals ++ "\n" ++ body
  /-- Loads and stores follow the uses one by one. -/
  accesses : List.Forall₂ (Use.DoneBy f.declared slot) f.uses (accesses m.body.toList)

end Outline

/-! ## Visible declarations as scopes -/

namespace Core

open Jvm

namespace Visible

variable {Γ : Visible} {decls : List (Ty × String)}

def scopes (Γ : Visible) : Outline.Scopes := Γ.mapEntries fun d => (d.name, d.id)

/-- All visible declarations are among `decls`, at the places of their numbers. -/
structure Within (decls : List (Ty × String)) (Γ : Visible) : Prop where
  ne_nil : Γ ≠ []
  declared : ∀ scope ∈ Γ, ∀ d ∈ scope, decls[d.id.index]? = some (d.ty, d.name)

/-- Opening a scope declares nothing. -/
theorem Within.push (h : Γ.Within decls) : Within decls ([] :: Γ) where
  ne_nil := List.cons_ne_nil [] Γ
  declared := List.forall_mem_cons.mpr ⟨List.forall_mem_nil _, h.declared⟩

theorem Within.declare {d : VarDecl} (h : Γ.Within decls)
    (hd : decls[d.id.index]? = some (d.ty, d.name)) : Within decls (Γ.declare d) := by
  cases Γ with
  | nil => exact h
  | cons scope outer =>
    obtain ⟨hscope, houter⟩ := List.forall_mem_cons.mp h.declared
    exact ⟨List.cons_ne_nil _ _,
      List.forall_mem_cons.mpr ⟨List.forall_mem_cons.mpr ⟨hd, hscope⟩, houter⟩⟩

/-- Listed declarations keep the scopes within the list. -/
theorem Within.declareAll {vs : List VarDecl} (h : Γ.Within decls)
    (hvs : ∀ d ∈ vs, decls[d.id.index]? = some (d.ty, d.name)) :
    Within decls (Γ.declareAll vs) := by
  induction vs generalizing Γ with
  | nil => exact h
  | cons d vs ih =>
    obtain ⟨hd, hvs⟩ := List.forall_mem_cons.mp hvs
    exact ih (h.declare hd) hvs

/-- A statement whose declarations are listed keeps the scopes within the list. -/
theorem Within.after (h : Γ.Within decls) (s : Stmt)
    (hs : ∀ d ∈ s.declared, decls[d.id.index]? = some (d.ty, d.name)) :
    (Γ.after s).Within decls := by
  cases s with
  | declare vs => exact h.declareAll hs
  | init v e => exact h.declare (hs v (List.mem_singleton.mpr rfl))
  | _ => exact h

/-- New variables have the numbers that their declarations get in the text. -/
theorem numbered_of_newVars {vs : List VarDecl} {vars : VarTypes} (h : NewVars vars vs) :
    Outline.numbered vars.length (vs.map fun v => (v.ty, v.name)) =
      vs.map fun v => (v.name, v.id) := by
  induction vs generalizing vars with
  | nil => rfl
  | cons v vs ih =>
    obtain ⟨hid, hvs⟩ := h.tail
    have hlen : (vars ++ [v.ty]).length = vars.length + 1 := by simp
    rw [List.map_cons, List.map_cons, Outline.numbered, ← hlen, ih hvs, ← hid]

/-- New variables are numbered on from those that are there, as the outline numbers them. -/
theorem scopes_declareAll {vs : List VarDecl} {vars : VarTypes} (h : NewVars vars vs) :
    Visible.scopes (Γ.declareAll vs) =
      Γ.scopes.declareAll (Outline.numbered vars.length (vs.map fun v => (v.ty, v.name))) := by
  rw [numbered_of_newVars h]
  exact Γ.mapEntries_declareAll _ vs

/-- Checked statements and their outlines agree on what is visible behind them. -/
theorem scopes_after {funs : FunctionTypes} {result : Ty} {name : VarId → String} {s : Stmt}
    {vars : VarTypes} (hs : s.WellTyped funs result vars) :
    (Γ.after s).scopes = Γ.scopes.after vars.length (s.outline name) := by
  cases s with
  | declare vs => exact scopes_declareAll hs
  | init v e =>
    have hv : NewVars vars [v] := hs.1
    exact scopes_declareAll hv
  | _ => rfl

/-- A scope with one declaration of a name. -/
theorem lookup_of_unique {scope : List VarDecl} {d : VarDecl} (hd : d ∈ scope)
    (hunique : ∀ e ∈ scope, e.name = d.name → e = d) :
    (scope.map fun d => (d.name, d.id)).lookup d.name = some d.id := by
  induction scope with
  | nil => cases hd
  | cons e scope ih =>
    obtain ⟨he, hscope⟩ := List.forall_mem_cons.mp hunique
    rw [List.map_cons, List.lookup_cons]
    -- whoever has the name is `d` itself
    by_cases hname : e.name = d.name
    · obtain rfl := he hname
      simp
    · rw [beq_eq_false_iff_ne.mpr (Ne.symm hname)]
      exact ih ((List.mem_cons.mp hd).resolve_left fun h => hname (h ▸ rfl)) hscope

/-- The innermost declaration of a name is the one that is found. -/
theorem Innermost.find? {d : VarDecl} (h : Γ.Innermost d) :
    Γ.scopes.find? d.name = some d.id := by
  obtain ⟨inner, scope, outer, rfl, hinner, hd, hunique⟩ := h
  induction inner with
  | nil =>
    have hfound := lookup_of_unique hd hunique
    simp only [scopes, ScopeStack.mapEntries, ScopeStack.find?, List.nil_append, List.map_cons,
      List.findSome?_cons, hfound]
  | cons s inner ih =>
    obtain ⟨hs, hinner⟩ := List.forall_mem_cons.mp hinner
    have hnone : (s.map fun d => (d.name, d.id)).lookup d.name = none := by
      rw [List.lookup_eq_none_iff]
      simpa [@eq_comm _ d.name] using hs
    simp only [scopes, ScopeStack.mapEntries, ScopeStack.find?, List.cons_append, List.map_cons,
      List.findSome?_cons, hnone]
    exact ih hinner

/-- The declaration that was made last is found. -/
theorem find?_declare (hΓ : Γ ≠ []) (d : VarDecl) :
    (Γ.scopes.declare (d.name, d.id)).find? d.name = some d.id := by
  cases Γ with
  | nil => exact absurd rfl hΓ
  | cons scope outer =>
    simp [scopes, ScopeStack.mapEntries, ScopeStack.declare, ScopeStack.find?]

/-- The innermost declaration is the one the outline finds, and its slot is the one accessed. -/
theorem Innermost.doneBy {slot : VarId → Nat} {v : VarId} {x : String} {ty : Ty}
    (h : Γ.Innermost ⟨v, x, ty⟩) (hΓ : Γ.Within decls) (access : Outline.Access) :
    Outline.Use.DoneBy decls slot ⟨access, x, Γ.scopes⟩ (access.instruction ty (slot v)) := by
  refine ⟨v, ty, h.find?, ?_, rfl⟩
  obtain ⟨inner, scope, outer, rfl, -, hd, -⟩ := h
  exact hΓ.declared scope (by simp) _ hd

end Visible

/-! ## Expressions -/

/-- Whatever refers to a variable refers to the innermost declaration of its name. -/
def Occurrence.Refers (name : VarId → String) (o : Occurrence) : Prop :=
  ∀ v ty, o.expr.reference? = some (v, ty) → o.visible.Innermost ⟨v, name v, ty⟩

section Accesses

variable {calls : CallTable} {funs : FunctionTypes} {slot : VarId → Nat} {name : VarId → String}
  {sigs : MethodTypes} {decls : List (Ty × String)} {result : Ty}

/-- The accesses of the code are what the uses ask for. -/
abbrev Follows (decls : List (Ty × String)) (slot : VarId → Nat) (uses : List Outline.Use)
    (ops : List Op) : Prop :=
  List.Forall₂ (Outline.Use.DoneBy decls slot) uses (accesses (lower slot ops))

/-- Accesses follow the uses part by part. -/
theorem Follows.append {us us' : List Outline.Use} {as bs : List Op}
    (ha : Follows decls slot us as) (hb : Follows decls slot us' bs) :
    Follows decls slot (us ++ us') (as ++ bs) := by
  unfold Follows
  rw [lower_append, accesses_append]
  exact List.rel_append ha hb

/-- Other instructions do not matter. -/
theorem Follows.append_emit {us : List Outline.Use} {as bs : List Op}
    (ha : Follows decls slot us as) (hb : accesses (lower slot bs) = []) :
    Follows decls slot us (as ++ bs) := by
  unfold Follows
  rw [lower_append, accesses_append, hb, List.append_nil]
  exact ha

/-- Code without loads and stores follows no uses. -/
theorem follows_nil {ops : List Op} (h : accesses (lower slot ops) = []) :
    Follows decls slot [] ops := by
  unfold Follows
  rw [h]
  exact .nil

/-- Making a truth value of a test adds neither loads nor stores. -/
theorem Follows.truth {us : List Outline.Use} {done : Label} {test : List Op}
    (h : Follows decls slot us test) : Follows decls slot us (truth done test) := by
  unfold Jvm.truth
  exact ((follows_nil rfl).append h).append_emit rfl

theorem accesses_compare (cond : Cond) (operandTy : Ty) (l : Label) :
    accesses (lower slot (Jvm.compare cond operandTy l)) = [] := by
  unfold Jvm.compare
  split
  · split <;> rfl
  · rfl

theorem accesses_invoke (f : String) : accesses (lower slot [invoke calls f]) = [] := by
  unfold invoke
  split <;> rfl

theorem accesses_convert (source target : Ty) :
    accesses (lower slot [convert source target]) = [] := by
  unfold convert
  split <;> rfl

/-- Every kind of step reads its variable once and then writes it once. -/
theorem accesses_stepCode (s : Step) (v : VarId) (ty : Ty) :
    accesses (lower slot (stepCode s v ty)) = [.load ty (slot v), .store ty (slot v)] := by
  unfold stepCode
  split_ifs <;> rfl

mutual

/-- The loads and stores in the code of an expression are its uses of variables, in the order of
evaluation. -/
theorem Expr.code_follows {Γ : Visible} (hΓ : Γ.Within decls) :
    ∀ (e : Expr) (n : Nat) {vars : VarTypes} {place : Place}, e.WellTyped funs vars →
      (∀ o ∈ e.occurrences Γ place, o.Refers name) →
      Follows decls slot ((e.outline name).uses Γ.scopes) (e.code calls n)
  | .const c, n, vars, place, _, _ => by
    rw [Expr.code, Expr.outline, Outline.Expr.uses]
    cases c <;> exact follows_nil rfl
  | .var v ty, n, vars, place, _, h => by
    rw [Expr.code, Expr.outline, Outline.Expr.uses]
    have hv := h _ List.mem_cons_self v ty rfl
    exact .cons (hv.doneBy hΓ .read) .nil
  | .assign v e ty, n, vars, place, he, h => by
    rw [Expr.code, Expr.outline, Outline.Expr.uses]
    obtain ⟨hself, hparts⟩ := List.forall_mem_cons.mp h
    have hv := hself v ty rfl
    rw [Expr.parts] at hparts
    exact (e.code_follows hΓ n he.2.2 hparts).append (.cons (hv.doneBy hΓ .write) .nil)
  | .call f args ty, n, vars, place, ⟨s, _, _, _, hargs⟩, h => by
    rw [Expr.code, Expr.outline, Outline.Expr.uses]
    obtain ⟨-, hparts⟩ := List.forall_mem_cons.mp h
    rw [Expr.parts] at hparts
    exact (codeOfArgs_follows hΓ args n 0 hargs hparts).append_emit (accesses_invoke f)
  | .binary op left right operandTy ty, n, vars, place, ⟨hop, _, _, hleft, hright⟩, h => by
    rw [Expr.outline, Outline.Expr.uses]
    obtain ⟨-, hparts⟩ := List.forall_mem_cons.mp h
    rw [Expr.parts] at hparts
    obtain ⟨hl, hr⟩ := List.forall_mem_append.mp hparts
    have hoperands : ∀ j k, Follows decls slot
        ((left.outline name).uses Γ.scopes ++ (right.outline name).uses Γ.scopes)
        (left.code calls j ++ right.code calls k) := fun j k =>
      (left.code_follows hΓ j hleft hl).append (right.code_follows hΓ k hright hr)
    cases hop with
    | arithmetic hop _ =>
      obtain ⟨a, -, -, -, hcode⟩ := code_arithmetic hop
      rw [hcode]
      exact (hoperands _ _).append_emit rfl
    | relational hop _ =>
      obtain ⟨cond, -, hcode⟩ := code_relational hop
      rw [hcode]
      exact ((hoperands _ _).append_emit (accesses_compare _ _ _)).truth
    | logical hop =>
      obtain ⟨a, -, hcode⟩ := code_logical hop
      rw [hcode]
      exact ((hoperands _ _).append_emit rfl).truth
  | .step s v ty, n, vars, place, _, h => by
    rw [Expr.code, Expr.outline, Outline.Expr.uses]
    have hv := h _ List.mem_cons_self v ty rfl
    unfold Follows
    rw [accesses_stepCode]
    exact .cons (hv.doneBy hΓ .read) (.cons (hv.doneBy hΓ .write) .nil)
  | .negate e ty, n, vars, place, he, h => by
    rw [Expr.code, Expr.outline, Outline.Expr.uses]
    obtain ⟨-, hparts⟩ := List.forall_mem_cons.mp h
    rw [Expr.parts] at hparts
    exact (e.code_follows hΓ n he.2.2 hparts).append_emit rfl
  | .cast target e, n, vars, place, he, h => by
    rw [Expr.code, Expr.outline]
    obtain ⟨-, hparts⟩ := List.forall_mem_cons.mp h
    rw [Expr.parts] at hparts
    exact (e.code_follows hΓ n he.2.2 hparts).append_emit (accesses_convert _ _)

/-- Arguments are evaluated from left to right. -/
theorem codeOfArgs_follows {Γ : Visible} (hΓ : Γ.Within decls) {f : String} :
    ∀ (es : List Expr) (n i : Nat) {vars : VarTypes}, ArgsWellTyped funs vars es →
      (∀ o ∈ argOccurrences Γ f i es, o.Refers name) →
      Follows decls slot (Outline.usesOfArgs Γ.scopes (outlineArgs name es))
        (codeOfArgs calls n es)
  | [], n, i, vars, _, _ => by
    rw [codeOfArgs, outlineArgs, Outline.usesOfArgs]
    exact follows_nil rfl
  | e :: es, n, i, vars, ⟨he, hes⟩, h => by
    rw [codeOfArgs, outlineArgs, Outline.usesOfArgs]
    rw [argOccurrences] at h
    obtain ⟨hfirst, hrest⟩ := List.forall_mem_append.mp h
    exact (e.code_follows hΓ n he hfirst).append (codeOfArgs_follows hΓ es _ _ hes hrest)

end

/-! ## Statements -/

theorem Expr.discarded_follows {Γ : Visible} (hΓ : Γ.Within decls) (e : Expr) (n : Nat)
    {vars : VarTypes} {place : Place} (he : e.WellTyped funs vars)
    (h : ∀ o ∈ e.occurrences Γ place, o.Refers name) :
    Follows decls slot ((e.outline name).uses Γ.scopes) (e.discarded calls n) := by
  refine (e.code_follows hΓ n he h).append_emit ?_
  split <;> rfl

theorem Expr.branchIfFalse_follows {Γ : Visible} (hΓ : Γ.Within decls) (e : Expr) (n : Nat)
    {vars : VarTypes} {place : Place} {l : Label} (he : e.WellTyped funs vars)
    (h : ∀ o ∈ e.occurrences Γ place, o.Refers name) :
    Follows decls slot ((e.outline name).uses Γ.scopes) (e.branchIfFalse calls n l) :=
  (e.code_follows hΓ n he h).append_emit rfl

theorem optionalDiscarded_follows {Γ : Visible} (hΓ : Γ.Within decls) {e : Option Expr} (n : Nat)
    {vars : VarTypes} {place : Place} (he : OptionalWellTyped funs vars e)
    (h : ∀ o ∈ optionalOccurrences Γ place e, o.Refers name) :
    Follows decls slot (Outline.optionalUses Γ.scopes (e.map (Expr.outline name)))
      (optionalCode (Expr.discarded calls n) e) := by
  cases e with
  | none => exact follows_nil rfl
  | some e => exact e.discarded_follows hΓ n he h

theorem optionalBranch_follows {Γ : Visible} (hΓ : Γ.Within decls) {e : Option Expr} (n : Nat)
    {vars : VarTypes} {place : Place} {l : Label} (he : ConditionWellTyped funs vars e)
    (h : ∀ o ∈ optionalOccurrences Γ place e, o.Refers name) :
    Follows decls slot (Outline.optionalUses Γ.scopes (e.map (Expr.outline name)))
      (optionalCode (Expr.branchIfFalse calls n l) e) := by
  cases e with
  | none => exact follows_nil rfl
  | some e => exact e.branchIfFalse_follows hΓ n he.1 h

mutual

/-- The outline declares the names and types that the statement does. -/
theorem Stmt.declared_outline (name : VarId → String) :
    ∀ s : Stmt, (s.outline name).declared = s.declared.map fun d => (d.ty, d.name)
  | .declare vs => by rw [Stmt.outline, Outline.Stmt.declared, Stmt.declared]
  | .init v e => by
    rw [Stmt.outline, Outline.Stmt.declared, Stmt.declared]
    rfl
  | .expr e => by
    rw [Stmt.outline, Outline.Stmt.declared, Stmt.declared]
    rfl
  | .ret value => by
    rw [Stmt.outline, Outline.Stmt.declared, Stmt.declared]
    rfl
  | .block body => by
    rw [Stmt.outline, Outline.Stmt.declared, Stmt.declared, declaredIn_outlineBlock]
  | .whileLoop c body => by
    rw [Stmt.outline, Outline.Stmt.declared, Stmt.declared, body.declared_outline]
  | .forLoop init c step body => by
    rw [Stmt.outline, Outline.Stmt.declared, Stmt.declared, body.declared_outline]
  | .ifThen c thenBranch => by
    rw [Stmt.outline, Outline.Stmt.declared, Stmt.declared, thenBranch.declared_outline]
  | .ifElse c thenBranch elseBranch => by
    rw [Stmt.outline, Outline.Stmt.declared, Stmt.declared, thenBranch.declared_outline,
      elseBranch.declared_outline, List.map_append]

theorem declaredIn_outlineBlock (name : VarId → String) :
    ∀ ss : List Stmt, Outline.declaredIn (outlineBlock name ss) =
      (declaredIn ss).map fun d => (d.ty, d.name)
  | [] => by
    rw [outlineBlock, Outline.declaredIn, declaredIn]
    rfl
  | s :: ss => by
    rw [outlineBlock, Outline.declaredIn, declaredIn, s.declared_outline,
      declaredIn_outlineBlock name ss, List.map_append]

end

/-- Numbering goes on behind the declarations of a statement. -/
theorem length_declared (name : VarId → String) (vars : VarTypes) (s : Stmt) :
    vars.length + (s.outline name).declared.length = (vars.extend s.declared).length := by
  rw [s.declared_outline, List.length_map, VarTypes.length_extend]

mutual

/-- The accesses of a statement follow its uses, where the number of variables so far is the number
of the next declaration. -/
theorem Stmt.code_follows :
    ∀ (s : Stmt) (n : Nat) {vars : VarTypes} {Γ : Visible}, Γ.Within decls →
      s.WellTyped funs result vars →
      (∀ d ∈ s.declared, decls[d.id.index]? = some (d.ty, d.name)) →
      (∀ o ∈ s.occurrences Γ, o.Refers name) →
      Follows decls slot ((s.outline name).uses Γ.scopes vars.length) (s.code calls n)
  | .declare vs, n, vars, Γ, _, _, _, _ => by
    rw [Stmt.code, Stmt.outline, Outline.Stmt.uses]
    refine follows_nil ?_
    rw [lower_reserve]
    rfl
  | .init v e, n, vars, Γ, hΓ, ⟨hv, _, he⟩, hd, h => by
    rw [Stmt.code, Stmt.outline, Outline.Stmt.uses, ← hv.tail.1]
    rw [Stmt.occurrences] at h
    -- the initialiser does not see the new variable, the store behind it does
    refine (e.code_follows hΓ n he h).append (.cons ?_ .nil)
    exact ⟨v.id, v.ty, Visible.find?_declare hΓ.ne_nil v, hd v (List.mem_singleton.mpr rfl), rfl⟩
  | .expr e, n, vars, Γ, hΓ, he, _, h => by
    rw [Stmt.code, Stmt.outline, Outline.Stmt.uses]
    rw [Stmt.occurrences] at h
    exact e.discarded_follows hΓ n he h
  | .ret none, n, vars, Γ, _, _, _, _ => by
    rw [Stmt.code, Stmt.outline, Outline.Stmt.uses]
    exact follows_nil rfl
  | .ret (some e), n, vars, Γ, hΓ, he, _, h => by
    rw [Stmt.code, Stmt.outline, Outline.Stmt.uses]
    rw [Stmt.occurrences] at h
    exact (e.code_follows hΓ n he.2.2 h).append_emit rfl
  | .block body, n, vars, Γ, hΓ, hbody, hd, h => by
    rw [Stmt.code, Stmt.outline, Outline.Stmt.uses]
    rw [Stmt.occurrences] at h
    exact codeOfBlock_follows body n hΓ.push hbody hd h
  | .whileLoop c body, n, vars, Γ, hΓ, ⟨hc, _, hbody⟩, hd, h => by
    rw [Stmt.code, Stmt.outline, Outline.Stmt.uses]
    rw [Stmt.occurrences] at h
    obtain ⟨hcond, hrest⟩ := List.forall_mem_append.mp h
    refine Follows.append_emit ?_ rfl
    refine ((follows_nil rfl).append (c.branchIfFalse_follows hΓ _ hc hcond)).append ?_
    exact body.code_follows _ hΓ.push hbody hd hrest
  | .forLoop init c step body, n, vars, Γ, hΓ, ⟨hinit, hc, hstep, hbody⟩, hd, h => by
    rw [Stmt.code, Stmt.outline, Outline.Stmt.uses]
    rw [Stmt.occurrences] at h
    obtain ⟨h, hbodies⟩ := List.forall_mem_append.mp h
    obtain ⟨h, hsteps⟩ := List.forall_mem_append.mp h
    obtain ⟨hinits, hconds⟩ := List.forall_mem_append.mp h
    -- the step is checked in front of the body and evaluated behind it
    refine Follows.append_emit (.append (.append (.append ?_ ?_) ?_) ?_) rfl
    · exact (optionalDiscarded_follows hΓ n hinit hinits).append_emit rfl
    · exact optionalBranch_follows hΓ _ hc hconds
    · exact body.code_follows _ hΓ.push hbody hd hbodies
    · exact optionalDiscarded_follows hΓ _ hstep hsteps
  | .ifThen c thenBranch, n, vars, Γ, hΓ, ⟨hc, _, hthen⟩, hd, h => by
    rw [Stmt.code, Stmt.outline, Outline.Stmt.uses]
    rw [Stmt.occurrences] at h
    obtain ⟨hcond, hrest⟩ := List.forall_mem_append.mp h
    refine Follows.append_emit ((c.branchIfFalse_follows hΓ _ hc hcond).append ?_) rfl
    exact thenBranch.code_follows _ hΓ.push hthen hd hrest
  | .ifElse c thenBranch elseBranch, n, vars, Γ, hΓ, ⟨hc, _, hthen, helse⟩, hd, h => by
    rw [Stmt.code, Stmt.outline, Outline.Stmt.uses, length_declared]
    rw [Stmt.occurrences] at h
    obtain ⟨h, helses⟩ := List.forall_mem_append.mp h
    obtain ⟨hcond, hthens⟩ := List.forall_mem_append.mp h
    obtain ⟨hdthen, hdelse⟩ := List.forall_mem_append.mp hd
    refine Follows.append_emit (.append ?_ ?_) rfl
    · refine Follows.append_emit (Follows.append_emit (.append ?_ ?_) ?_) rfl
      · exact c.branchIfFalse_follows hΓ _ hc hcond
      · exact thenBranch.code_follows _ hΓ.push hthen hdthen hthens
      · split <;> rfl
    · exact elseBranch.code_follows _ hΓ.push helse hdelse helses

/-- In a block, each statement uses the variables that the ones before it declared. -/
theorem codeOfBlock_follows :
    ∀ (ss : List Stmt) (n : Nat) {vars : VarTypes} {Γ : Visible}, Γ.Within decls →
      BlockWellTyped funs result vars ss →
      (∀ d ∈ declaredIn ss, decls[d.id.index]? = some (d.ty, d.name)) →
      (∀ o ∈ blockOccurrences Γ ss, o.Refers name) →
      Follows decls slot (Outline.usesOfBlock Γ.scopes vars.length (outlineBlock name ss))
        (codeOfBlock calls n ss)
  | [], n, vars, Γ, _, _, _, _ => by
    rw [codeOfBlock, outlineBlock, Outline.usesOfBlock]
    exact follows_nil rfl
  | s :: ss, n, vars, Γ, hΓ, ⟨hs, hss⟩, hd, h => by
    rw [codeOfBlock, outlineBlock, Outline.usesOfBlock, length_declared,
      ← Visible.scopes_after hs]
    rw [blockOccurrences] at h
    obtain ⟨hfirst, hrest⟩ := List.forall_mem_append.mp h
    obtain ⟨hds, hdss⟩ := List.forall_mem_append.mp hd
    exact (s.code_follows n hΓ hs hds hfirst).append
      (codeOfBlock_follows ss _ (hΓ.after s hds) hss hdss hrest)

end

/-! ## Functions -/

namespace Function

variable {f : Function}

theorem declared_outline (f : Function) :
    f.outline.declared = f.vars.map fun d => (d.ty, d.name) := by
  rw [Outline.Function.declared, vars, List.map_append]
  exact congrArg _ (declaredIn_outlineBlock f.nameOf f.body)

/-- The outline of a function declares its variables with their types. -/
theorem types_declared (f : Function) : f.outline.declared.map Prod.fst = f.varTypes := by
  rw [declared_outline, List.map_map]
  rfl

/-- Declarations stand at the places of their numbers. -/
theorem WellTyped.getElem?_declared (hf : f.WellTyped funs) :
    ∀ d ∈ f.vars, f.outline.declared[d.id.index]? = some (d.ty, d.name) := by
  intro d hd
  obtain ⟨i, hi⟩ := List.getElem?_of_mem hd
  have hid : d.id.index = i := by
    have hnumber : (f.vars.map fun v => v.id.index)[i]? = (List.range f.vars.length)[i]? := by
      rw [hf.numbers]
    rw [List.getElem?_map, hi, List.getElem?_range (List.getElem?_eq_some_iff.mp hi).1] at hnumber
    exact Option.some.inj hnumber
  rw [declared_outline, List.getElem?_map, hid, hi]
  rfl

/-- The loads and stores of a function are those its outline asks for, slot for slot. -/
theorem instructions_follow (hf : f.WellTyped funs)
    (hrefers : ∀ o ∈ f.occurrences, o.Refers f.nameOf) :
    List.Forall₂ (Outline.Use.DoneBy f.outline.declared (slotIn f.varTypes)) f.outline.uses
      (accesses (f.instructions calls)) := by
  obtain ⟨hparams, hbody⟩ := List.forall_mem_append.mp hf.getElem?_declared
  have hΓ : Visible.Within f.outline.declared (ScopeStack.declareAll [[]] f.params) :=
    Visible.Within.declareAll ⟨List.cons_ne_nil _ _, by simp⟩ hparams
  have hscopes : Visible.scopes (ScopeStack.declareAll [[]] f.params) =
      ScopeStack.declareAll [[]] (Outline.numbered 0 (f.params.map fun v => (v.ty, v.name))) :=
    Visible.scopes_declareAll hf.params
  have hfollows : Follows f.outline.declared (slotIn f.varTypes) _ (codeOfBlock calls 0 f.body) :=
    codeOfBlock_follows f.body 0 hΓ hf.body hbody hrefers
  rw [hscopes, List.length_map] at hfollows
  have huses : f.outline.uses =
      Outline.usesOfBlock (ScopeStack.declareAll [[]]
          (Outline.numbered 0 (f.params.map fun v => (v.ty, v.name))))
        f.params.length (outlineBlock f.nameOf f.body) := by
    rw [Outline.Function.uses]
    exact congrArg (Outline.usesOfBlock _ · _) (List.length_map ..)
  rw [huses, instructions_eq, accesses_append]
  have htail : accesses (if f.signature.ret = .void && !endsInReturn (codeOfBlock calls 0 f.body)
      then [.ret .void] else []) = [] := by
    split <;> rfl
  rw [htail, List.append_nil]
  exact hfollows

/-- A generated method lays its local variables out as the outline of its function says. -/
theorem laidOut {m : Method} (hcalls : CallsFit calls funs sigs) (hf : f.WellTyped funs)
    (hrefers : ∀ o ∈ f.occurrences, o.Refers f.nameOf) (hm : f.method calls = .ok m) :
    f.outline.LaidOut (slotIn f.varTypes) m := by
  have hgrown := method_grown hcalls hf hm
  have hholds : m.Holds f.varTypes := by
    have h := hgrown.holds
    rwa [(code_declares hcalls hf).2, List.nil_append] at h
  have htype : ∀ (v : VarId) a, f.outline.declared[v.index]? = some a →
      f.varTypes[v.index]? = some a.1 := by
    intro v a ha
    rw [← types_declared, List.getElem?_map, ha]
    rfl
  have hlocals : m.locals = wordsOf (f.outline.declared.map Prod.fst) := by
    rw [types_declared, hholds.locals]
  have hspec : m.spec = f.outline.name ++
      Signature.descriptor ⟨f.outline.ret, f.outline.params.map Prod.fst⟩ := by
    have htypes : f.outline.params.map Prod.fst = f.signature.params := by
      rw [← hf.signature]
      exact List.map_map ..
    rw [hgrown.spec, htypes]
    rfl
  refine ⟨?_, ?_, ?_, ?_, hlocals, ?_, ?_⟩
  · intro v hv
    refine hholds.slots v ?_
    rwa [← types_declared, List.length_map]
  · intro v hv
    have hparams : f.outline.declared.take v.index = f.outline.params.take v.index :=
      List.take_append_of_le_length (Nat.le_of_lt hv)
    rw [slotIn, ← types_declared, ← List.map_take, hparams]
  · intro v w a b hne ha hb
    rcases Nat.lt_or_gt_of_ne fun h => hne (congrArg VarId.mk h) with hlt | hlt
    · exact .inl (slotIn_add_words_le (htype v a ha) hlt)
    · exact .inr (slotIn_add_words_le (htype w b hb) hlt)
  · intro v a ha
    rw [hholds.locals]
    exact slotIn_add_words_le_wordsOf (htype v a ha)
  · rw [← hspec]
    exact m.exists_text
  · rw [method_body hcalls hf hm]
    exact instructions_follow hf hrefers

end Function

end Accesses

/-- The variables of a function are laid out as its text says, if there is room for all of them. -/
theorem local_variables_laidOut {p : Surface.Program} {t : Program} {className : String}
    {calls : CallTable} {f : Surface.Function} {f' : Function} (hcheck : checkProgram p = .ok t)
    (hcalls : callTable className t = .ok calls) (hf : (f, f') ∈ p.zip t)
    (hroom : wordsOf (f.outline.declared.map Prod.fst) ≤ maxLocals) :
    ∃ m slot, f'.method calls = .ok m ∧ f.outline.LaidOut slot m := by
  obtain ⟨htyped, -⟩ := checkProgram_wellTyped hcheck
  have hfit := callsFit htyped.names hcalls
  have hft := htyped.functions f' (List.of_mem_zip hf).2
  obtain ⟨houtline, hfaithful⟩ := faithful_of_mem_zip hcheck hf
  rw [← houtline, Function.types_declared] at hroom
  obtain ⟨m, hm, -⟩ := Function.method_of_room hfit hft hroom
  refine ⟨m, slotIn f'.varTypes, hm, ?_⟩
  rw [← houtline]
  exact Function.laidOut hfit hft (fun o ho => (hfaithful.expressions o ho).reference) hm

/-- A function where names are declared again in inner scopes, and a `main` that does nothing:
`double mix(int a, double b) { double c = a; { int c; for (c = 0; c < 3; c++) { double a = c;
b = b + a; } } return b + c; }` -/
def mixProgram : Surface.Program :=
  let a : Name := ⟨"a", .nowhere⟩
  let b : Name := ⟨"b", .nowhere⟩
  let c : Name := ⟨"c", .nowhere⟩
  let int (k : Int32) : Surface.Expr := .const ⟨.int k, .nowhere⟩
  [{ ret := .double
     name := ⟨"mix", .nowhere⟩
     params := [⟨.int, a⟩, ⟨.double, b⟩]
     body := [
       .init .double c (.var a),
       .block [
         .declare .int [c],
         .forLoop (some (.assign c (int 0))) (some (.binary ⟨.lt, .nowhere⟩ (.var c) (int 3)))
           (some (.step .postIncrement c))
           (.block [
             .init .double a (.var c),
             .expr (.assign b (.binary ⟨.add, .nowhere⟩ (.var b) (.var a)))])],
       .ret .nowhere (some (.binary ⟨.add, .nowhere⟩ (.var b) (.var c)))] },
   { ret := .void, name := ⟨"main", .nowhere⟩, params := [], body := [] }]

theorem local_variables_laidOut_mix :
    ∃ t calls f f', checkProgram mixProgram = .ok t ∧ callTable "Mix" t = .ok calls ∧
      (f, f') ∈ mixProgram.zip t ∧ wordsOf (f.outline.declared.map Prod.fst) = 8 ∧
      f.outline.uses.map (fun u => (u.access, u.name, u.scopes.find? u.name)) = [
        (.read, "a", some ⟨0⟩), (.write, "c", some ⟨2⟩),
        (.write, "c", some ⟨3⟩), (.read, "c", some ⟨3⟩),
        (.read, "c", some ⟨3⟩), (.write, "a", some ⟨4⟩),
        (.read, "b", some ⟨1⟩), (.read, "a", some ⟨4⟩), (.write, "b", some ⟨1⟩),
        (.read, "c", some ⟨3⟩), (.write, "c", some ⟨3⟩),
        (.read, "b", some ⟨1⟩), (.read, "c", some ⟨2⟩)] ∧
      ∃ m slot, f'.method calls = .ok m ∧ f.outline.LaidOut slot m := by
  refine ⟨_, _, _, _, rfl, rfl, List.mem_cons_self, rfl, rfl, ?_⟩
  exact @local_variables_laidOut mixProgram _ "Mix" _ _ _ rfl rfl List.mem_cons_self (by decide)

end Core

end MiniC
