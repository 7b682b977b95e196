import MiniC.Builtin
import MiniC.Core.Basic

/-!
# Well-typed core programs

What a core tree promises to whoever reads it: the type on every expression is the type of its
value, operands and arguments have the types that are asked for, and a variable is referred to by
the type of its declaration.

Variables are numbered in the order in which they are declared, so the types of the variables
declared so far are a list, and the number of a variable is its place in that list. A variable that
went out of scope keeps its place.
-/

namespace MiniC

/-- `op` takes two operands of the first type and gives the second. -/
inductive BinaryOp.Typed (op : BinaryOp) : Ty → Ty → Prop where
  | arithmetic {ty : Ty} : op.isArithmetic = true → ty.isNumerical = true → Typed op ty ty
  | relational {ty : Ty} : op.isRelational = true → (ty.isNumerical = true ∨ ty = .bool) →
      Typed op ty .bool
  | logical : op.isLogical = true → Typed op .bool .bool

namespace Core

/-- The types of functions, by name. -/
abbrev FunctionTypes := String → Option Signature

/-- The types of the variables declared so far, by number. -/
abbrev VarTypes := List Ty

mutual

/-- The expression keeps its promises, for functions `funs` and variables `vars`. -/
def Expr.WellTyped (funs : FunctionTypes) (vars : VarTypes) : Expr → Prop
  | .const _ => True
  | .var v ty => vars[v.index]? = some ty
  | .assign v e ty => vars[v.index]? = some ty ∧ e.ty = ty ∧ e.WellTyped funs vars
  | .call f args ty =>
    ∃ s, funs f = some s ∧ s.ret = ty ∧ args.map Expr.ty = s.params ∧
      ArgsWellTyped funs vars args
  | .binary op left right operandTy ty =>
    op.Typed operandTy ty ∧ left.ty = operandTy ∧ right.ty = operandTy ∧
      left.WellTyped funs vars ∧ right.WellTyped funs vars
  | .step _ v ty => vars[v.index]? = some ty ∧ ty.isNumerical = true
  | .negate e ty => e.ty = ty ∧ ty.isNumerical = true ∧ e.WellTyped funs vars
  | .cast target e => target = .double ∧ e.ty = .int ∧ e.WellTyped funs vars

def ArgsWellTyped (funs : FunctionTypes) (vars : VarTypes) : List Expr → Prop
  | [] => True
  | e :: es => e.WellTyped funs vars ∧ ArgsWellTyped funs vars es

end

/-- An expression that may be left out. -/
def OptionalWellTyped (funs : FunctionTypes) (vars : VarTypes) : Option Expr → Prop
  | none => True
  | some e => e.WellTyped funs vars

/-- A condition that may be left out. -/
def ConditionWellTyped (funs : FunctionTypes) (vars : VarTypes) : Option Expr → Prop
  | none => True
  | some e => e.WellTyped funs vars ∧ e.ty = .bool

/-- New variables take the next numbers, and none of them is `void`. -/
def NewVars (vars : VarTypes) (vs : List VarDecl) : Prop :=
  vs.map (fun v => v.id.index) = List.range' vars.length vs.length ∧ ∀ v ∈ vs, v.ty ≠ .void

mutual

/-- All variables that a statement declares, in the order of their numbers. -/
def Stmt.declared : Stmt → List VarDecl
  | .declare vs => vs
  | .init v _ => [v]
  | .expr _ | .ret _ => []
  | .block body => declaredIn body
  | .whileLoop _ body | .forLoop _ _ _ body => body.declared
  | .ifThen _ thenBranch => thenBranch.declared
  | .ifElse _ thenBranch elseBranch => thenBranch.declared ++ elseBranch.declared

def declaredIn : List Stmt → List VarDecl
  | [] => []
  | s :: ss => s.declared ++ declaredIn ss

end

/-- `vars`, followed by the types of `vs`. -/
def VarTypes.extend (vars : VarTypes) (vs : List VarDecl) : VarTypes := vars ++ vs.map VarDecl.ty

mutual

/-- The statement keeps its promises in a function that gives a `result`, behind the declarations of
`vars`. -/
def Stmt.WellTyped (funs : FunctionTypes) (result : Ty) (vars : VarTypes) : Stmt → Prop
  | .declare vs => NewVars vars vs
  | .init v e => NewVars vars [v] ∧ e.ty = v.ty ∧ e.WellTyped funs vars
  | .expr e => e.WellTyped funs vars
  | .ret none => result = .void
  | .ret (some e) => result ≠ .void ∧ e.ty = result ∧ e.WellTyped funs vars
  | .block body => BlockWellTyped funs result vars body
  | .whileLoop c body =>
    c.WellTyped funs vars ∧ c.ty = .bool ∧ body.WellTyped funs result vars
  | .forLoop init c step body =>
    OptionalWellTyped funs vars init ∧ ConditionWellTyped funs vars c ∧
      OptionalWellTyped funs vars step ∧ body.WellTyped funs result vars
  | .ifThen c thenBranch =>
    c.WellTyped funs vars ∧ c.ty = .bool ∧ thenBranch.WellTyped funs result vars
  | .ifElse c thenBranch elseBranch =>
    c.WellTyped funs vars ∧ c.ty = .bool ∧ thenBranch.WellTyped funs result vars ∧
      elseBranch.WellTyped funs result (vars.extend thenBranch.declared)

def BlockWellTyped (funs : FunctionTypes) (result : Ty) (vars : VarTypes) : List Stmt → Prop
  | [] => True
  | s :: ss =>
    s.WellTyped funs result vars ∧ BlockWellTyped funs result (vars.extend s.declared) ss

end

namespace Function

/-- All variables of a function: its parameters and what its body declares. -/
def vars (f : Function) : List VarDecl := f.params ++ declaredIn f.body

structure WellTyped (funs : FunctionTypes) (f : Function) : Prop where
  known : funs f.name = some f.signature
  params : NewVars [] f.params
  signature : f.params.map VarDecl.ty = f.signature.params
  body : BlockWellTyped funs f.signature.ret (f.params.map VarDecl.ty) f.body

end Function

/-- The functions that a program can call: the built-in ones and its own. -/
def functionsOf (p : Program) : List (String × Signature) :=
  Builtin.signatures ++ p.map fun f => (f.name, f.signature)

def functionTypes (p : Program) : FunctionTypes := fun f => (functionsOf p).lookup f

structure ProgramWellTyped (p : Program) : Prop where
  names : ((functionsOf p).map Prod.fst).Nodup
  main : functionTypes p "main" = some ⟨.void, []⟩
  functions : ∀ f ∈ p, f.WellTyped (functionTypes p)

/-! ## Declared variables -/

section Declared

variable {funs : FunctionTypes} {vars : VarTypes}

theorem VarTypes.extend_append (vars : VarTypes) (vs ws : List VarDecl) :
    vars.extend (vs ++ ws) = (vars.extend vs).extend ws := by
  simp [VarTypes.extend]

theorem VarTypes.length_extend (vars : VarTypes) (vs : List VarDecl) :
    (vars.extend vs).length = vars.length + vs.length := by
  simp [VarTypes.extend]

/-- New variables behind new variables are new. -/
theorem NewVars.append {vs ws : List VarDecl} (hv : NewVars vars vs)
    (hw : NewVars (vars.extend vs) ws) : NewVars vars (vs ++ ws) := by
  refine ⟨?_, ?_⟩
  · rw [List.map_append, hv.1, hw.1, VarTypes.length_extend, List.range'_append_1,
      List.length_append]
  · intro v hmem
    rcases List.mem_append.mp hmem with h | h
    · exact hv.2 v h
    · exact hw.2 v h

/-- The first new variable takes the next number. -/
theorem NewVars.tail {v : VarDecl} {vs : List VarDecl} (h : NewVars vars (v :: vs)) :
    v.id.index = vars.length ∧ NewVars (vars ++ [v.ty]) vs := by
  obtain ⟨hids, hvoid⟩ := h
  simp only [List.map_cons, List.length_cons, List.range'_succ, List.cons.injEq] at hids
  refine ⟨hids.1, ?_, fun w hw => hvoid w (by simp [hw])⟩
  simpa using hids.2

theorem newVars_nil : NewVars vars [] := ⟨rfl, by simp⟩

mutual

/-- What a statement declares takes the next numbers, also across its blocks and branches. -/
theorem Stmt.WellTyped.newVars {result : Ty} :
    ∀ (s : Stmt) {vars : VarTypes}, s.WellTyped funs result vars → NewVars vars s.declared
  | .declare _, _, h => h
  | .init _ _, _, h => h.1
  | .expr _, _, _ => newVars_nil
  | .ret none, _, _ => newVars_nil
  | .ret (some _), _, _ => newVars_nil
  | .block body, _, h => BlockWellTyped.newVars body h
  | .whileLoop _ body, _, h => Stmt.WellTyped.newVars body h.2.2
  | .forLoop _ _ _ body, _, h => Stmt.WellTyped.newVars body h.2.2.2
  | .ifThen _ thenBranch, _, h => Stmt.WellTyped.newVars thenBranch h.2.2
  | .ifElse _ thenBranch elseBranch, _, h =>
    (Stmt.WellTyped.newVars thenBranch h.2.2.1).append
      (Stmt.WellTyped.newVars elseBranch h.2.2.2)

/-- A well-typed block numbers its variables on from those before it. -/
theorem BlockWellTyped.newVars {result : Ty} :
    ∀ (ss : List Stmt) {vars : VarTypes}, BlockWellTyped funs result vars ss →
      NewVars vars (declaredIn ss)
  | [], _, _ => newVars_nil
  | s :: ss, _, h => (Stmt.WellTyped.newVars s h.1).append (BlockWellTyped.newVars ss h.2)

end

/-- No variable is `void`. -/
def NoVoid (vars : VarTypes) : Prop := ∀ ty ∈ vars, ty ≠ .void

theorem NoVoid.ne_void {v : VarId} {ty : Ty} (h : NoVoid vars) (hv : vars[v.index]? = some ty) :
    ty ≠ .void :=
  h ty (List.mem_of_getElem? hv)

/-- New variables are never void. -/
theorem NoVoid.extend {vs : List VarDecl} (h : NoVoid vars) (hnew : NewVars vars vs) :
    NoVoid (vars.extend vs) := by
  intro ty hty
  rcases List.mem_append.mp hty with hty | hty
  · exact h ty hty
  · obtain ⟨v, hv, rfl⟩ := List.mem_map.mp hty
    exact hnew.2 v hv

end Declared

/-! ## More variables -/

/-- A variable keeps its type when more are declared. -/
theorem getElem?_of_isPrefix {vars total : VarTypes} {i : Nat} {ty : Ty} (hp : vars <+: total)
    (h : vars[i]? = some ty) : total[i]? = some ty := by
  obtain ⟨more, rfl⟩ := hp
  rw [List.getElem?_append_left (List.getElem?_eq_some_iff.mp h).1]
  exact h

mutual

/-- An expression stays well typed when more variables are declared. -/
theorem Expr.WellTyped.mono {funs : FunctionTypes} {vars total : VarTypes} (hp : vars <+: total) :
    ∀ (e : Expr), e.WellTyped funs vars → e.WellTyped funs total
  | .const _, _ => trivial
  | .var _ _, h => getElem?_of_isPrefix hp h
  | .assign _ e _, ⟨hv, hty, he⟩ => ⟨getElem?_of_isPrefix hp hv, hty, Expr.WellTyped.mono hp e he⟩
  | .call _ args _, ⟨s, hs, hret, htys, hargs⟩ =>
    ⟨s, hs, hret, htys, ArgsWellTyped.mono hp args hargs⟩
  | .binary _ left right _ _, ⟨hop, hl, hr, hleft, hright⟩ =>
    ⟨hop, hl, hr, Expr.WellTyped.mono hp left hleft, Expr.WellTyped.mono hp right hright⟩
  | .step _ _ _, ⟨hv, hn⟩ => ⟨getElem?_of_isPrefix hp hv, hn⟩
  | .negate e _, ⟨hty, hn, he⟩ => ⟨hty, hn, Expr.WellTyped.mono hp e he⟩
  | .cast _ e, ⟨htarget, hty, he⟩ => ⟨htarget, hty, Expr.WellTyped.mono hp e he⟩

theorem ArgsWellTyped.mono {funs : FunctionTypes} {vars total : VarTypes} (hp : vars <+: total) :
    ∀ (es : List Expr), ArgsWellTyped funs vars es → ArgsWellTyped funs total es
  | [], _ => trivial
  | e :: es, ⟨he, hes⟩ => ⟨Expr.WellTyped.mono hp e he, ArgsWellTyped.mono hp es hes⟩

end

section More

variable {funs : FunctionTypes} {vars total : VarTypes} {e : Option Expr}

theorem OptionalWellTyped.mono (hp : vars <+: total) (h : OptionalWellTyped funs vars e) :
    OptionalWellTyped funs total e := by
  cases e with
  | none => trivial
  | some e => exact Expr.WellTyped.mono hp e h

theorem ConditionWellTyped.mono (hp : vars <+: total) (h : ConditionWellTyped funs vars e) :
    ConditionWellTyped funs total e := by
  cases e with
  | none => trivial
  | some e => exact ⟨Expr.WellTyped.mono hp e h.1, h.2⟩

theorem prefix_of_extend {vs : List VarDecl} (h : vars.extend vs <+: total) : vars <+: total :=
  (List.prefix_append _ _).trans h

end More

end Core

end MiniC
