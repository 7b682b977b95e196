import MiniC.Jvm.Module
import MiniC.Proofs.Core.Building
import MiniC.Proofs.Core.Decision
import MiniC.Proofs.Core.Likeness

/-!
# Separate checking and compilation

Each function of a program can be checked and compiled on its own, from its definition and a table
of the functions that it may call. The program is accepted if all of its functions are, and its
module is the fixed part of the class with the methods of the functions behind it. Nothing of one
function leaks into another: no scope, no number of a variable, no label and no slot.

That the functions do not disturb each other is no matter of a clean start: one environment is
handed from function to function, with all that it has collected.
-/

namespace MiniC.Core

open Jvm

variable {env env' : Environment}

/-! ## Functions alone -/

/-- Checks a function on its own, from an environment that knows the functions of `table` and
nothing else. -/
def checkAlone (table : List (String × Signature)) (f : Surface.Function) : Checked Function :=
  checkFunction ⟨table, [], 0⟩ f

/-- The method of a function on its own, in the class `className`. -/
def compileAlone (className : String) (table : List (String × Signature))
    (f : Surface.Function) : Checked Method := do
  let f' ← checkAlone table f
  let calls ← (addCallees className [] table).mapError .fault
  (f'.method calls).mapError .fault

/-- How a function is checked depends on nothing but the functions that are found in the
environment. -/
theorem checkFunction_congr (h : ∀ g, env'.functions.lookup g = env.functions.lookup g)
    (f : Surface.Function) : checkFunction env' f = checkFunction env f := by
  refine (checkFunction_alike Function.injective_id h f.alike_refl).eq (fun _ _ h => h.eq) ?_
  intro f' g' hrename
  rw [hrename, Function.rename_id]

theorem checkFunctions_eq_mapM (fs : List Surface.Function) :
    checkFunctions env fs = fs.mapM (checkFunction env) := by
  induction fs with
  | nil => rfl
  | cons f fs ih => rw [checkFunctions, List.mapM_cons, ih]

theorem methods_eq_mapM (calls : CallTable) (fs : List Function) :
    methods calls fs = fs.mapM (Function.method calls) := by
  induction fs with
  | nil => rfl
  | cons f fs ih => rw [methods, List.mapM_cons, ih]

/-! ## Programs -/

/-- The signatures of a program are those that its functions are checked with alone. -/
theorem checkProgram_eq_mapM {p : Surface.Program}
    (hsigs : addSignatures builtinEnvironment p = .ok env) (hmain : hasMain env = true) :
    checkProgram p = p.mapM (checkAlone (Surface.functionsOf p)) := by
  have hfuns : ∀ g, (Surface.functionsOf p).lookup g = env.functions.lookup g :=
    fun g => (congrFun (addSignatures_builtin hsigs).2 g).symm
  have halone : checkAlone (Surface.functionsOf p) = checkFunction env :=
    funext (checkFunction_congr hfuns)
  rw [checkProgram_eq, hsigs, halone, ← checkFunctions_eq_mapM]
  exact if_pos hmain

theorem checkProgram_signatures {p : Surface.Program} {t : Program} (h : checkProgram p = .ok t) :
    ∃ env, addSignatures builtinEnvironment p = .ok env ∧ hasMain env = true := by
  simp only [checkProgram_eq, bind_eq_ok] at h
  obtain ⟨env, henv, h⟩ := h
  split at h
  · next hmain => exact ⟨env, henv, hmain⟩
  · cases h

theorem compileAlone_eq_ok {className : String} {table : List (String × Signature)}
    {f : Surface.Function} {k : Method} :
    compileAlone className table f = .ok k ↔
      ∃ f' calls, checkAlone table f = .ok f' ∧ addCallees className [] table = .ok calls ∧
        f'.method calls = .ok k := by
  simp only [compileAlone, bind_eq_ok, mapError_eq_ok]
  constructor
  · rintro ⟨f', hf, calls, hcalls, hk⟩
    exact ⟨f', calls, hf, hcalls, hk⟩
  · rintro ⟨f', calls, hf, hcalls, hk⟩
    exact ⟨f', hf, calls, hcalls, hk⟩

/-- The call table of an accepted program is that of its text. -/
theorem callTable_of_check {className : String} {p : Surface.Program} {t : Program}
    (h : checkProgram p = .ok t) :
    callTable className t = addCallees className [] (Surface.functionsOf p) := by
  obtain ⟨-, hnames, -⟩ := checkProgram_wellTyped h
  rw [callTable, Surface.functionsOf, hnames]

/-- The methods of an accepted program are those of its functions alone. -/
theorem methods_iff_alone {className : String} {table : List (String × Signature)}
    {calls : CallTable} (hcalls : addCallees className [] table = .ok calls)
    {fs : List Surface.Function} {t : Program}
    (ht : List.Forall₂ (fun f f' => checkAlone table f = .ok f') fs t) {ms : List Method} :
    methods calls t = .ok ms ↔
      List.Forall₂ (fun f k => compileAlone className table f = .ok k) fs ms := by
  rw [methods_eq_mapM, mapM_eq_ok]
  induction ht generalizing ms with
  | nil => rw [List.forall₂_nil_left_iff, List.forall₂_nil_left_iff]
  | @cons f f' fs t hf _ ih =>
    have hhead : ∀ k, f'.method calls = .ok k ↔ compileAlone className table f = .ok k := by
      intro k
      rw [compileAlone_eq_ok]
      constructor
      · exact fun hk => ⟨f', calls, hf, hcalls, hk⟩
      · rintro ⟨f₁, calls₁, hf₁, hcalls₁, hk⟩
        obtain rfl := Except.ok.inj (hf₁.symm.trans hf)
        obtain rfl := Except.ok.inj (hcalls₁.symm.trans hcalls)
        exact hk
    simp only [List.forall₂_cons_left_iff, hhead, ih]

/-- The text of a module that has the given methods: the fixed part, then an empty line and the text
of each method. -/
def linkedText (className : String) (ms : List Method) : String :=
  support className ++ String.join (ms.map fun k => "\n" ++ k.text)

theorem moduleText_eq_ok {className : String} {t : Program} {text : String} :
    (generate className t).map Module.text = .ok text ↔
      ∃ calls ms, callTable className t = .ok calls ∧ methods calls t = .ok ms ∧
        text = linkedText className ms := by
  unfold generate
  cases callTable className t with
  | error f => simp [bind, Except.bind, Except.map]
  | ok calls =>
    cases hms : methods calls t with
    | error f => simp [bind, Except.bind, Except.map, hms]
    | ok ms =>
      simp [bind, Except.bind, Except.map, pure, Except.pure, hms, Module.text, Module.code,
        linkedText, eq_comm]

/-- The text of a module is linked from the methods of the functions alone. -/
theorem moduleText_iff_linked {className : String} {p : Surface.Program} {t : Program}
    (h : checkProgram p = .ok t) {text : String} :
    (generate className t).map Module.text = .ok text ↔
      ∃ ms, List.Forall₂ (fun f k => compileAlone className (Surface.functionsOf p) f = .ok k) p
          ms ∧ text = linkedText className ms := by
  obtain ⟨env, hsigs, hmain⟩ := checkProgram_signatures h
  have ht := mapM_eq_ok.mp ((checkProgram_eq_mapM hsigs hmain).symm.trans h)
  rw [moduleText_eq_ok, callTable_of_check h]
  constructor
  · rintro ⟨calls, ms, hcalls, hms, rfl⟩
    exact ⟨ms, (methods_iff_alone hcalls ht).mp hms, rfl⟩
  · rintro ⟨ms, hms, rfl⟩
    -- the table exists because some function, `main`, was compiled with it
    cases hms with
    | nil => cases h
    | cons hk hms =>
      obtain ⟨-, calls, -, hcalls, -⟩ := compileAlone_eq_ok.mp hk
      exact ⟨calls, _, hcalls, (methods_iff_alone hcalls ht).mpr (.cons hk hms), rfl⟩

/-- A table of functions knows nothing of their bodies. -/
theorem functionsOf_body (before after : List Surface.Function) (f : Surface.Function)
    (body : List Surface.Stmt) :
    Surface.functionsOf (before ++ { f with body } :: after) =
      Surface.functionsOf (before ++ f :: after) := by
  simp [Surface.functionsOf, Surface.Function.signature]

theorem linkedText_append (className : String) (front back : List Method) (k : Method) :
    linkedText className (front ++ k :: back) =
      (linkedText className front ++ "\n") ++ k.text ++
        String.join (back.map fun k => "\n" ++ k.text) := by
  simp [linkedText, String.join_append, String.append_assoc]

/-- Programs that differ in one body have texts that differ in one method. -/
theorem texts_differ_in_one_method {className : String} {before after : List Surface.Function}
    {f : Surface.Function} {body : List Surface.Stmt} {t t' : Program} {text text' : String}
    (ht : checkProgram (before ++ f :: after) = .ok t)
    (ht' : checkProgram (before ++ { f with body } :: after) = .ok t')
    (htext : (generate className t).map Module.text = .ok text)
    (htext' : (generate className t').map Module.text = .ok text') :
    ∃ k k' front back,
      compileAlone className (Surface.functionsOf (before ++ f :: after)) f = .ok k ∧
      compileAlone className (Surface.functionsOf (before ++ f :: after)) { f with body } = .ok k' ∧
      text = front ++ k.text ++ back ∧ text' = front ++ k'.text ++ back := by
  obtain ⟨ms, hms, rfl⟩ := (moduleText_iff_linked ht).mp htext
  obtain ⟨ms', hms', rfl⟩ := (moduleText_iff_linked ht').mp htext'
  rw [functionsOf_body] at hms'
  obtain ⟨front, k, back, hfront, hk, hback, rfl⟩ := mapM_append_cons_eq_ok (mapM_eq_ok.mpr hms)
  obtain ⟨front', k', back', hfront', hk', hback', rfl⟩ :=
    mapM_append_cons_eq_ok (mapM_eq_ok.mpr hms')
  -- the other functions have the same methods in both programs
  obtain rfl : front' = front := Except.ok.inj (hfront'.symm.trans hfront)
  obtain rfl : back' = back := Except.ok.inj (hback'.symm.trans hback)
  exact ⟨k, k', _, _, hk, hk', linkedText_append _ _ _ _, linkedText_append _ _ _ _⟩

/-- What it means that the functions of `p` are checked and compiled one by one, for an environment
`env` of their signatures. -/
structure Separate (env : Environment) (p : Surface.Program) : Prop where
  /-- A program is accepted just if every function is accepted alone. -/
  accepted : ∀ t, checkProgram p = .ok t ↔
    List.Forall₂ (fun f f' => checkAlone (Surface.functionsOf p) f = .ok f') p t
  /-- The first function that is rejected alone decides. -/
  rejected : ∀ e, checkProgram p = .error e ↔
    ∃ before f after, p = before ++ f :: after ∧
      (∀ g ∈ before, ∃ g', checkAlone (Surface.functionsOf p) g = .ok g') ∧
      checkAlone (Surface.functionsOf p) f = .error e
  /-- Handing one environment from function to function makes no difference. -/
  inTurn : checkProgram p = checkInTurn env p
  /-- The module text is linked from the methods of the functions alone. -/
  linked : ∀ className t text, checkProgram p = .ok t →
    ((generate className t).map Module.text = .ok text ↔
      ∃ ms, List.Forall₂ (fun f k => compileAlone className (Surface.functionsOf p) f = .ok k) p
          ms ∧ text = linkedText className ms)
  /-- If one function is given another body, nothing but its method changes. -/
  oneBody : ∀ className t t' text text' before f after body, p = before ++ f :: after →
    checkProgram p = .ok t → checkProgram (before ++ { f with body } :: after) = .ok t' →
    (generate className t).map Module.text = .ok text →
    (generate className t').map Module.text = .ok text' →
    ∃ k k' front back,
      compileAlone className (Surface.functionsOf p) f = .ok k ∧
      compileAlone className (Surface.functionsOf p) { f with body } = .ok k' ∧
      text = front ++ k.text ++ back ∧ text' = front ++ k'.text ++ back

/-- Once the signatures of a program are collected and `main` is among them, checking and compiling
it is a matter of its functions one by one. -/
theorem separate_compilation {p : Surface.Program}
    (hsigs : addSignatures builtinEnvironment p = .ok env) (hmain : hasMain env = true) :
    Separate env p where
  accepted t := by rw [checkProgram_eq_mapM hsigs hmain, mapM_eq_ok]
  rejected e := by rw [checkProgram_eq_mapM hsigs hmain, mapM_eq_error]
  inTurn := by
    rw [checkInTurn_eq, checkProgram_eq, hsigs]
    exact if_pos hmain
  linked _ _ _ ht := moduleText_iff_linked ht
  oneBody := by
    rintro className t t' text text' before f after body rfl ht ht' htext htext'
    exact texts_differ_in_one_method ht ht' htext htext'

/-- `int twice(int n) { { double n = 1; } return n + n; } void main() { int n = twice(2); }` -/
def twiceTwo : Surface.Program :=
  let n : Name := ⟨"n", .nowhere⟩
  let int (i : Int32) : Surface.Expr := .const ⟨.int i, .nowhere⟩
  [{ ret := .int
     name := ⟨"twice", .nowhere⟩
     params := [⟨.int, n⟩]
     body := [
       .block [.init .double n (int 1)],
       .ret .nowhere (some (.binary ⟨.add, .nowhere⟩ (.var n) (.var n)))] },
   { ret := .void
     name := ⟨"main", .nowhere⟩
     params := []
     body := [.init .int n (.call ⟨"twice", .nowhere⟩ [int 2])] }]

theorem separate_compilation_twiceTwo :
    ∃ env t m, addSignatures builtinEnvironment twiceTwo = .ok env ∧ hasMain env = true ∧
      checkProgram twiceTwo = .ok t ∧ generate "Twice" t = .ok m ∧ Separate env twiceTwo := by
  have hgenerate : ∃ t, checkProgram twiceTwo = .ok t ∧ ∃ m, generate "Twice" t = .ok m := by
    refine ⟨_, rfl, ?_⟩
    simp only [generate, methods, Function.method_eq]
    exact ⟨_, rfl⟩
  obtain ⟨t, ht, m, hm⟩ := hgenerate
  exact ⟨_, t, m, rfl, rfl, ht, hm, separate_compilation rfl rfl⟩

end MiniC.Core
