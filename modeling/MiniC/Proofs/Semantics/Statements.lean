import MiniC.Proofs.Semantics.Expressions
import MiniC.Proofs.Semantics.Returns

/-!
# The code of statements mirrors their execution

The other half of the step to the next fuel: statements, loops and calls. A statement either goes on
behind its code or has returned to the caller.
-/

namespace MiniC

theorem Value.words_of_void {P : Platform} {x : Value P} (h : x.ty = .void) : x.words = [] := by
  cases x <;> cases h
  rfl

namespace Jvm

open MiniC.Core Activation

variable {P : Platform} {t : Program} {m : Module} {calls : CallTable} {n : Nat}
  {a : Activation P} {k pc : Nat} {stack : List (Word P)} {locals : Locals P} {s : Core.State P}

theorem Activation.instrs_reserves (vs : List VarDecl) :
    a.instrs (vs.map fun v => .reserve v.id v.ty) = [] :=
  lower_reserve _ vs

/-! ## Parts of statements -/

/-- An expression whose value is dropped. -/
theorem Mirrored.discarded (h : Mirrored P t m calls n) {e : Expr}
    (he : e.WellTyped (functionTypes t) a.vars)
    (hcode : CodeAt a.code pc (a.instrs (e.discarded calls k)))
    (hag : Agrees a.vars s.store locals) :
    Mirrors m (a.conf pc stack locals s.world)
      (fun _ => a.Reached (pc + (a.instrs (e.discarded calls k)).length) [] stack)
      (evalExpr t n e s) := by
  unfold Expr.discarded at hcode ⊢
  rw [instrs_append] at hcode
  rw [behind_append]
  refine (h.expr e a k pc stack locals s he hcode.left hag).extend ?_
  rintro x s' c - ⟨hx, locals', rfl, hag'⟩
  by_cases hvoid : e.ty = .void
  · rw [if_pos hvoid, Value.words_of_void (hx.trans hvoid)]
    exact ⟨_, .refl, locals', rfl, hag'⟩
  · rw [if_neg hvoid] at hcode ⊢
    have hpop : a.code[pc + (a.instrs (e.code calls k)).length]? = some (.pop x.ty) :=
      hx ▸ hcode.right.head
    exact ⟨_, steps_pop hpop (hx ▸ hvoid), locals', rfl, hag'⟩

theorem Mirrored.discard (h : Mirrored P t m calls n) {e : Option Expr}
    (he : OptionalWellTyped (functionTypes t) a.vars e)
    (hcode : CodeAt a.code pc (a.instrs (optionalCode (Expr.discarded calls k) e)))
    (hag : Agrees a.vars s.store locals) :
    Mirrors m (a.conf pc stack locals s.world)
      (fun _ => a.Reached (pc + (a.instrs (optionalCode (Expr.discarded calls k) e)).length) []
        stack)
      (Eval.discard (evalExpr t n) e s) := by
  cases e with
  | none => exact Mirrors.pure ⟨locals, rfl, hag⟩
  | some e => exact (h.discarded he hcode hag).bind fun _ s' c hc => Mirrors.pure hc

/-- A condition goes on if it is true, and else jumps to its label, which is placed at `j`. -/
theorem Mirrored.condition (h : Mirrored P t m calls n) {c : Option Expr} {l : Label} {j : Nat}
    (hc : ConditionWellTyped (functionTypes t) a.vars c)
    (hcode : CodeAt a.code pc (a.instrs (optionalCode (Expr.branchIfFalse calls k l) c)))
    (hj : a.code[j]? = some (.label l)) (hag : Agrees a.vars s.store locals) :
    Mirrors m (a.conf pc stack locals s.world)
      (fun b => a.Reached (if b then
        pc + (a.instrs (optionalCode (Expr.branchIfFalse calls k l) c)).length else j) [] stack)
      (Eval.condition (evalExpr t n) c s) := by
  cases c with
  | none => exact Mirrors.pure ⟨locals, rfl, hag⟩
  | some e =>
    obtain ⟨he, hbool⟩ := hc
    simp only [optionalCode, Expr.branchIfFalse, instrs_append] at hcode
    simp only [optionalCode, Expr.branchIfFalse, behind_append]
    refine (h.expr e a k pc stack locals s he hcode.left hag).bind ?_
    rintro x s' d ⟨hx, locals', rfl, hag'⟩
    cases x <;> cases hx.trans hbool
    next b =>
    have htest : ∀ b : Bool, Cond.eq.test (if b then 1 else 0) 0 = !b := by decide
    refine ⟨_, steps_ifZero hcode.right.head hj (htest b), locals', ?_, hag'⟩
    cases b <;> rfl

/-- A label that is placed behind a statement. -/
theorem mirrors_label {start : Config P} {l : Label} {result : Ty}
    {r : EStateM.Result Stop (Core.State P) (Completion P)} (hl : a.code[pc]? = some (.label l))
    (h : Mirrors m start (a.Completed pc stack result) r) :
    Mirrors m start (a.Completed (pc + 1) stack result) r := by
  refine h.extend ?_
  rintro (_ | x) s c - hc
  · obtain ⟨locals, rfl, hag⟩ := hc
    exact ⟨_, steps_label hl, locals, rfl, hag⟩
  · exact ⟨c, .refl, hc⟩

/-! ## Statements -/

theorem Mirrored.init (h : Mirrored P t m calls n) (v : VarDecl) (e : Expr) :
    StmtMirrored P t m calls (n + 1) (.init v e) := by
  rintro a k vars result pc stack locals s ⟨hnew, hety, he⟩ hvars hcode hag
  rw [Stmt.code, instrs_append] at hcode
  rw [execStmt, Stmt.code, behind_append]
  have he' := Expr.WellTyped.mono (prefix_of_extend hvars) e he
  refine (h.expr e a k pc stack locals s he' hcode.left hag).bind ?_
  rintro x s' c ⟨hx, locals', rfl, hag'⟩
  obtain hxv : x.ty = v.ty := hx.trans hety
  have hv : a.vars[v.id.index]? = some x.ty := by
    refine getElem?_of_isPrefix hvars ?_
    simp [VarTypes.extend, Stmt.declared, hnew.tail.1, hxv]
  have hstore : a.code[pc + (a.instrs (e.code calls k)).length]? =
      some (.store x.ty (slotIn a.vars v.id)) := hxv ▸ hcode.right.head
  exact ⟨_, steps_store hstore, _, rfl, hag'.write hv⟩

theorem Mirrored.ret (h : Mirrored P t m calls n) (value : Option Expr) :
    StmtMirrored P t m calls (n + 1) (.ret value) := by
  cases value with
  | none =>
    intro a k vars result pc stack locals s htyped hvars hcode hag
    obtain rfl : result = .void := htyped
    rw [Stmt.code] at hcode
    exact ⟨_, steps_ret (x := .void) hcode.head, rfl, rfl⟩
  | some e =>
    rintro a k vars result pc stack locals s ⟨-, rfl, he⟩ hvars hcode hag
    rw [Stmt.code, instrs_append] at hcode
    rw [execStmt, Stmt.code, behind_append]
    have he' := Expr.WellTyped.mono (prefix_of_extend hvars) e he
    refine (h.expr e a k pc stack locals s he' hcode.left hag).bind ?_
    rintro x s' c ⟨hx, locals', rfl, hag'⟩
    have hret : a.code[pc + (a.instrs (e.code calls k)).length]? = some (.ret x.ty) :=
      hx ▸ hcode.right.head
    exact ⟨_, steps_ret hret, hx, rfl⟩

theorem code_whileLoop (c : Expr) (body : Stmt) (k : Nat) :
    (Stmt.whileLoop c body).code calls k =
      loopCode calls (k + 2) (k + 2 + c.labels) 0 ⟨k⟩ ⟨k + 1⟩ (some c) none body := by
  simp [Stmt.code, loopCode, optionalCode]

theorem code_forLoop (init c step : Option Expr) (body : Stmt) (k : Nat) :
    (Stmt.forLoop init c step body).code calls k =
      let l := k + optionalLabels init
      let inBody := l + 2 + optionalLabels c
      optionalCode (Expr.discarded calls k) init ++
        loopCode calls (l + 2) inBody (inBody + body.labels) ⟨l⟩ ⟨l + 1⟩ c step body := by
  simp only [Stmt.code, loopCode, List.append_assoc]

theorem Mirrored.forLoop (h : Mirrored P t m calls n) (init c step : Option Expr) (body : Stmt) :
    StmtMirrored P t m calls (n + 1) (.forLoop init c step body) := by
  rintro a k vars result pc stack locals s ⟨hinit, hc, hstep, hbody⟩ hvars hcode hag
  rw [code_forLoop, instrs_append] at hcode
  rw [execStmt, code_forLoop, behind_append]
  have hinit' := hinit.mono (prefix_of_extend hvars)
  refine (h.discard hinit' hcode.left hag).bind ?_
  rintro _ s' d ⟨locals', rfl, hag'⟩
  exact h.loop c step body a _ _ _ _ _ vars result _ stack locals' s' hc hstep hbody hvars
    hcode.right hag'

theorem Mirrored.ifThen (h : Mirrored P t m calls n) (c : Expr) (thenBranch : Stmt) :
    StmtMirrored P t m calls (n + 1) (.ifThen c thenBranch) := by
  rintro a k vars result pc stack locals s ⟨hc, hbool, hthen⟩ hvars hcode hag
  rw [Stmt.code, instrs_append, instrs_append, List.append_assoc] at hcode
  rw [execStmt, Stmt.code, behind_append, behind_append]
  have hc' := Expr.WellTyped.mono (prefix_of_extend hvars) c hc
  have hlabel := hcode.right.right.head
  refine (h.condition (c := some c) ⟨hc', hbool⟩ hcode.left hlabel hag).bind ?_
  rintro b s' d ⟨locals', rfl, hag'⟩
  cases b with
  | true =>
    exact mirrors_label hlabel (h.stmt thenBranch a _ vars result _ stack locals' s' hthen hvars
      hcode.right.left hag')
  | false => exact ⟨_, steps_label hlabel, locals', rfl, hag'⟩

theorem Mirrored.ifElse (h : Mirrored P t m calls n) (c : Expr) (thenBranch elseBranch : Stmt) :
    StmtMirrored P t m calls (n + 1) (.ifElse c thenBranch elseBranch) := by
  rintro a k vars result pc stack locals s ⟨hc, hbool, hthen, helse⟩ hvars hcode hag
  rw [Stmt.declared, VarTypes.extend_append] at hvars
  rw [Stmt.code] at hcode
  simp only [instrs_append, List.append_assoc] at hcode
  rw [execStmt, Stmt.code]
  simp only [behind_append]
  have hc' := Expr.WellTyped.mono (prefix_of_extend (prefix_of_extend hvars)) c hc
  have hotherwise := hcode.right.right.right.left.head
  have hlast := hcode.right.right.right.right
  refine (h.condition (c := some c) ⟨hc', hbool⟩ hcode.left hotherwise hag).bind ?_
  rintro b s' d ⟨locals', rfl, hag'⟩
  cases b with
  | true =>
    refine (h.stmt thenBranch a _ vars result _ stack locals' s' hthen (prefix_of_extend hvars)
      hcode.right.left hag').extend ?_
    rintro (_ | x) s'' d heq hd
    · obtain ⟨locals'', rfl, hag''⟩ := hd
      -- the branch went on, so its code does not end in a return and the jump is there
      have hgo : endsInReturn (thenBranch.code calls (k + 2 + c.labels)) = false :=
        Bool.eq_false_iff.mpr fun hends => thenBranch.returns hends heq
      have hskip := hcode.right.right.left
      rw [hgo] at hskip
      refine ⟨_, (steps_goto hskip.head hlast.right.head).trans (steps_label hlast.right.head),
        locals'', rfl, hag''⟩
    · exact ⟨d, .refl, hd⟩
  | false =>
    refine Mirrors.of_steps (steps_label hotherwise) (mirrors_label hlast.right.head ?_)
    exact h.stmt elseBranch a _ _ result _ stack locals' s' helse hvars hlast.left hag'

/-- One more round of the evaluator, for statements. -/
theorem Mirrored.stmt_succ (h : Mirrored P t m calls n) (st : Stmt) :
    StmtMirrored P t m calls (n + 1) st := by
  cases st with
  | declare vs =>
    intro a k vars result pc stack locals s _ _ _ hag
    rw [execStmt, Stmt.code, instrs_reserves]
    exact ⟨_, .refl, locals, rfl, hag.forget⟩
  | init v e => exact h.init v e
  | expr e =>
    intro a k vars result pc stack locals s he hvars hcode hag
    have he' := Expr.WellTyped.mono (prefix_of_extend hvars) e he
    exact (h.discarded he' hcode hag).bind fun _ _ _ hd => Mirrors.pure hd
  | ret value => exact h.ret value
  | block body =>
    intro a k vars result pc stack locals s htyped hvars hcode hag
    exact h.block body a k vars result pc stack locals s htyped hvars hcode hag
  | whileLoop c body =>
    rintro a k vars result pc stack locals s ⟨hc, hbool, hbody⟩ hvars hcode hag
    rw [code_whileLoop] at hcode ⊢
    exact h.loop (some c) none body a _ _ _ _ _ vars result pc stack locals s ⟨hc, hbool⟩ trivial
      hbody hvars hcode hag
  | forLoop init c step body => exact h.forLoop init c step body
  | ifThen c thenBranch => exact h.ifThen c thenBranch
  | ifElse c thenBranch elseBranch => exact h.ifElse c thenBranch elseBranch

theorem Mirrored.block_succ (h : Mirrored P t m calls n) (ss : List Stmt) :
    BlockMirrored P t m calls (n + 1) ss := by
  cases ss with
  | nil =>
    intro a k vars result pc stack locals s _ _ _ hag
    exact Mirrors.pure ⟨locals, rfl, hag⟩
  | cons st ss =>
    rintro a k vars result pc stack locals s ⟨hst, hss⟩ hvars hcode hag
    rw [declaredIn, VarTypes.extend_append] at hvars
    rw [codeOfBlock, instrs_append] at hcode
    rw [execBlock, codeOfBlock, behind_append]
    refine (h.stmt st a k vars result pc stack locals s hst (prefix_of_extend hvars) hcode.left
      hag).bind ?_
    rintro (_ | x) s' c hc
    · obtain ⟨locals', rfl, hag'⟩ := hc
      exact h.block ss a _ _ result _ stack locals' s' hss hvars hcode.right hag'
    · exact Mirrors.pure hc

/-- One round of a loop: the jump back arrives at the label that the round started from. -/
theorem Mirrored.loop_succ (h : Mirrored P t m calls n) (c step : Option Expr) (body : Stmt) :
    LoopMirrored P t m calls (n + 1) c step body := by
  intro a i j k test done vars result pc stack locals s hc hstep hbody hvars hcode hag
  have hprefix := prefix_of_extend hvars
  have hall := hcode
  simp only [loopCode, instrs_append, List.append_assoc] at hcode
  have htest := hcode.left.head
  have hlast := hcode.right.right.right.right
  have hdone := hlast.tail.head
  rw [Core.loop]
  refine Mirrors.of_steps (steps_label htest) ?_
  refine (h.condition (hc.mono hprefix) hcode.right.left hdone hag).bind ?_
  rintro b s₁ d ⟨locals₁, rfl, hag₁⟩
  cases b with
  | false =>
    refine ⟨_, steps_label hdone, locals₁, ?_, hag₁⟩
    simp only [loopCode, behind_append]
    rfl
  | true =>
    refine (h.stmt body a _ vars result _ stack locals₁ s₁ hbody hvars hcode.right.right.left
      hag₁).bind ?_
    rintro (_ | x) s₂ d hd
    · obtain ⟨locals₂, rfl, hag₂⟩ := hd
      refine (h.discard (hstep.mono hprefix) hcode.right.right.right.left hag₂).bind ?_
      rintro _ s₃ d ⟨locals₃, rfl, hag₃⟩
      refine Mirrors.of_steps (steps_goto hlast.head htest) ?_
      -- the same loop from its label on, with less fuel
      exact h.loop c step body a i j k test done vars result pc stack locals₃ s₃ hc hstep hbody
        hvars hall hag₃
    · exact Mirrors.pure hd

/-! ## Calls -/

theorem Mirrors.withStore {α : Type} {start : Config P} {store : Store P} {x : Eval P α}
    {goal : α → World P → Config P → Prop}
    (h : Mirrors m start (fun y s' => goal y s'.world) (x { s with store })) :
    Mirrors m start (fun y s' c => s'.store = s.store ∧ goal y s'.world c)
      (Eval.withStore store x s) := by
  unfold Eval.withStore
  cases hr : x { s with store } with
  | ok y s' =>
    rw [hr] at h
    obtain ⟨c, hc, hgoal⟩ := h
    exact ⟨c, hc, rfl, hgoal⟩
  | error e s' =>
    rw [hr] at h
    cases e
    · exact h
    · trivial
    · trivial

/-- What the body of a function leaves behind when it ends with `completion`. -/
def Returned (ret : Ty) (callers : List (Frame P)) (completion : Completion P) (w : World P)
    (c : Config P) : Prop :=
  match completion with
  | .next => ret = .void → c = .resume [] callers w
  | .returned x => x.ty = ret ∧ c = .resume x.words callers w

/-- The method of a function, called with the words of its arguments, runs the body and returns. -/
theorem Mirrored.body (hl : Linked t m calls) (h : Mirrored P t m calls n) {f : Function}
    (hf : f ∈ t) {xs : List (Value P)} (hxs : xs.map Value.ty = f.signature.params)
    (callers : List (Frame P)) (s : Core.State P) :
    Mirrors m (.running ⟨f.instructions calls, 0, [], .ofWords (xs.flatMap Value.words)⟩ callers
        s.world)
      (fun x s' c => x.ty = f.signature.ret ∧ s'.store = s.store ∧
        c = .resume x.words callers s'.world)
      ((do
        let c ← Eval.withStore (.ofArgs f.params xs) (execBlock t n f.body)
        Eval.result f.signature.ret c : Eval P _) s) := by
  have hft := hl.typed.functions f hf
  let a : Activation P := ⟨f.instructions calls, callers, f.varTypes,
    (Function.code_labels hft).nodup, hft.noVoid_varTypes⟩
  have hvars : VarTypes.extend (f.params.map VarDecl.ty) (declaredIn f.body) = a.vars := by
    rw [VarTypes.extend, ← List.map_append]
    rfl
  have hcode : CodeAt a.code 0 (a.instrs (codeOfBlock calls 0 f.body) ++
      a.instrs (if f.signature.ret = .void && !endsInReturn (codeOfBlock calls 0 f.body)
        then [.emit (.ret .void)] else [])) := by
    have hall : a.instrs (f.code calls) = a.code := rfl
    rw [Function.code, instrs_append, instrs_append, instrs_reserves, List.nil_append] at hall
    rw [hall]
    exact codeAt_all _
  -- the caller's words lie where the parameters are kept
  have hag : Agrees a.vars (Store.ofArgs f.params xs) (.ofWords (xs.flatMap Value.words)) := by
    refine agrees_ofArgs hft.params (hxs.trans hft.signature.symm) ?_ fun i _ => ?_
    · rw [← hvars]
      exact List.prefix_append _ _
    · simp [Locals.ofWords]
  have hblock := h.block f.body a 0 (f.params.map VarDecl.ty) f.signature.ret 0 []
    (.ofWords (xs.flatMap Value.words)) { s with store := .ofArgs f.params xs } hft.body
    (hvars ▸ List.prefix_rfl) hcode.left hag
  have hreturned : Mirrors m (a.conf 0 [] (.ofWords (xs.flatMap Value.words)) s.world)
      (fun completion s' => Returned f.signature.ret callers completion s'.world)
      (execBlock t n f.body { s with store := .ofArgs f.params xs }) := by
    refine hblock.extend ?_
    rintro (_ | x) s' c heq hc
    · obtain ⟨locals', rfl, -⟩ := hc
      by_cases hvoid : f.signature.ret = .void
      · -- the body went on to its end, so a `return` was put there
        have hgo : endsInReturn (codeOfBlock calls 0 f.body) = false :=
          Bool.eq_false_iff.mpr fun hends => block_returns f.body hends heq
        have hret := hcode.right
        simp only [hvoid, hgo, Bool.not_false, decide_true, Bool.and_self, if_true] at hret
        exact ⟨_, steps_ret (x := .void) hret.head, fun _ => rfl⟩
      · exact ⟨_, .refl, fun hv => absurd hv hvoid⟩
    · exact ⟨c, .refl, hc⟩
  refine (hreturned.withStore).bind ?_
  rintro (_ | x) s' c ⟨hstore, hc⟩
  · rw [Eval.result]
    split
    · next hvoid => exact Mirrors.pure ⟨hvoid.symm, hstore, hc hvoid⟩
    · trivial
  · exact Mirrors.pure ⟨hc.1, hstore, hc.2⟩

theorem find?_function {f : String} {g : Function}
    (hg : t.find? (fun g => g.name = f) = some g) : g ∈ t ∧ g.name = f :=
  ⟨List.mem_of_find?_eq_some hg, by simpa using List.find?_some hg⟩

/-- A function that the program does not define is a built-in one. -/
theorem mem_builtin {f : String} {sig : Signature} (hsig : functionTypes t f = some sig)
    (hnone : t.find? (fun g => g.name = f) = none) : (f, sig) ∈ Builtin.signatures := by
  rcases List.mem_append.mp (mem_of_lookup hsig) with hbuiltin | hown
  · exact hbuiltin
  · obtain ⟨g, hg, heq⟩ := List.mem_map.mp hown
    have := List.find?_eq_none.mp hnone g hg
    simp only [Prod.mk.injEq] at heq
    simp [heq.1] at this

theorem params_builtin : ∀ e ∈ Builtin.signatures, ∀ ty ∈ e.2.params,
    ty = .int ∨ ty = .double ∨ ty = .string := by
  decide

/-- A call takes just the words of its arguments from the stack. -/
theorem execute_invoke {name : String} {xs : List (Value P)} {sig : Signature} {result : Nat}
    (hxs : xs.map Value.ty = sig.params) :
    execute m (.invoke name sig.paramWords result)
        ⟨a.code, pc, (xs.flatMap Value.words).reverse ++ stack, locals⟩ a.callers s.world =
      enter m name (xs.flatMap Value.words) ⟨a.code, pc + 1, stack, locals⟩ a.callers s.world := by
  have hlen : (xs.flatMap Value.words).reverse.length = sig.paramWords := by
    rw [List.length_reverse, length_flatMap_words, hxs]
    rfl
  have hle : sig.paramWords ≤ ((xs.flatMap Value.words).reverse ++ stack).length := by
    rw [List.length_append, hlen]
    exact Nat.le_add_right _ _
  simp only [execute, if_pos hle, List.take_left' hlen, List.drop_left' hlen, List.reverse_reverse]

theorem Mirrored.call_succ (hl : Linked t m calls) (h : Mirrored P t m calls n) (f : String)
    (xs : List (Value P)) : CallMirrored P t m (n + 1) f xs := by
  intro a sig pc stack locals s hsig hxs hcode
  have hsteps : ∀ {c : Config P}, enter m (methodName m.className f sig) (xs.flatMap Value.words)
      ⟨a.code, pc + 1, stack, locals⟩ a.callers s.world = some c →
      Steps m (a.conf pc ((xs.flatMap Value.words).reverse ++ stack) locals s.world) c :=
    fun hc => steps_one hcode ((execute_invoke hxs).trans hc)
  rw [Core.call]
  cases hg : t.find? fun g => g.name = f with
  | some g =>
    obtain ⟨hmem, rfl⟩ := find?_function hg
    have hknown := (hl.typed.functions g hmem).known
    obtain rfl : g.signature = sig := Option.some.inj (hknown.symm.trans hsig)
    obtain ⟨x, hx, hbody⟩ := hl.own g hmem
    refine Mirrors.of_steps (hsteps (by rw [enter, hx])) ?_
    rw [hbody]
    exact h.body hl hmem hxs _ s
  | none =>
    -- a built-in function returns in the step that calls it
    have hmem := mem_builtin hsig hg
    obtain ⟨hfind, hbuiltin⟩ := hl.builtin (f, sig) hmem
    have hdecode : decode sig.params (xs.flatMap Value.words) = some xs := by
      rw [← hxs]
      refine decode_words fun x hx => params_builtin (f, sig) hmem x.ty ?_
      rw [← hxs]
      exact List.mem_map_of_mem hx
    simp only [Eval.builtin]
    cases hr : s.world.builtin f xs with
    | none => trivial
    | some r =>
      refine ⟨_, hsteps (c := a.conf (pc + 1) (r.1.words.reverse ++ stack) locals r.2) ?_,
        World.ty_builtin hmem hr, rfl, rfl⟩
      rw [enter, hfind, hbuiltin]
      simp only [hdecode, Option.bind_some, hr, Option.map_some]
      rfl

/-- Every run is mirrored, whatever its fuel. -/
theorem mirrored (P : Platform) (hl : Linked t m calls) (n : Nat) : Mirrored P t m calls n := by
  induction n with
  | zero =>
    -- without fuel every run is cut off at once
    refine ⟨?_, ?_, ?_, ?_, ?_, ?_⟩
    · intro e a k pc stack locals s _ _ _
      rw [evalExpr]
      exact Mirrors.exhausted
    · intro es a k pc stack locals s _ _ _
      rw [evalArgs]
      exact Mirrors.exhausted
    · intro f xs a sig pc stack locals s _ _ _
      rw [Core.call]
      exact Mirrors.exhausted
    · intro st a k vars result pc stack locals s _ _ _ _
      rw [execStmt]
      exact Mirrors.exhausted
    · intro ss a k vars result pc stack locals s _ _ _ _
      rw [execBlock]
      exact Mirrors.exhausted
    · intro c step body a i j k test done vars result pc stack locals s _ _ _ _ _ _
      rw [Core.loop]
      exact Mirrors.exhausted
  | succ n ih =>
    exact ⟨ih.expr_succ hl, ih.args_succ, ih.call_succ hl, ih.stmt_succ, ih.block_succ,
      ih.loop_succ⟩

end Jvm

end MiniC
