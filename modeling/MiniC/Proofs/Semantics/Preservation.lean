import MiniC.Proofs.Semantics.Statements
import Mathlib.Data.List.Nodup

/-!
# Code generation preserves meaning

The methods of a generated module are those of the program's functions, and each is found by its
name. So every run of `main` that ends is mirrored by the machine: it halts or traps just as the
program does, after the same input and output.
-/

namespace MiniC.Jvm

open MiniC.Core

variable {P : Platform} {t : Program} {m : Module} {calls : CallTable} {className : String}

/-! ## Methods by name -/

theorem mem_methods {fs : List Function} {ms : List Method} (h : methods calls fs = .ok ms) :
    (∀ f ∈ fs, ∃ x ∈ ms, f.method calls = .ok x) ∧
      ∀ x ∈ ms, ∃ f ∈ fs, f.method calls = .ok x := by
  induction fs generalizing ms with
  | nil =>
    simp only [methods, pure_eq_ok] at h
    subst h
    simp
  | cons f fs ih =>
    simp only [methods, bind_eq_ok, pure_eq_ok] at h
    obtain ⟨x, hx, rest, hrest, rfl⟩ := h
    obtain ⟨hto, hof⟩ := ih hrest
    refine ⟨?_, ?_⟩
    · intro g hg
      rcases List.mem_cons.mp hg with rfl | hg
      · exact ⟨x, by simp, hx⟩
      · obtain ⟨y, hy, heq⟩ := hto g hg
        exact ⟨y, by simp [hy], heq⟩
    · intro y hy
      rcases List.mem_cons.mp hy with rfl | hy
      · exact ⟨f, by simp, hx⟩
      · obtain ⟨g, hg, heq⟩ := hof y hy
        exact ⟨g, by simp [hg], heq⟩

theorem methodName_eq (className : String) (f : Function) :
    className ++ "/" ++ f.spec = methodName className f.name f.signature := by
  simp [Function.spec, methodName, String.append_assoc]

/-- The name of a function tells it apart from all other functions, the built-in ones included. -/
theorem function_unique (hnames : ((functionsOf t).map Prod.fst).Nodup) {f g : Function}
    (hf : f ∈ t) (hg : g ∈ t) (heq : f.name = g.name) : f = g := by
  rw [functionsOf, List.map_append, List.map_map] at hnames
  exact List.inj_on_of_nodup_map (f := Function.name) hnames.of_append_right hf hg heq

theorem builtin_unique {e e' : String × Signature} (he : e ∈ Builtin.signatures)
    (he' : e' ∈ Builtin.signatures) (heq : e.1 = e'.1) : e = e' :=
  List.inj_on_of_nodup_map (f := Prod.fst) (by decide) he he' heq

theorem name_ne_builtin (hnames : ((functionsOf t).map Prod.fst).Nodup) {f : Function}
    {e : String × Signature} (hf : f ∈ t) (he : e ∈ Builtin.signatures) : f.name ≠ e.1 := by
  rw [functionsOf, List.map_append, List.map_map] at hnames
  intro heq
  exact List.disjoint_of_nodup_append hnames (List.mem_map_of_mem he)
    (heq ▸ List.mem_map_of_mem (f := Function.name) hf)

theorem linked_of_generate (ht : ProgramWellTyped t) (h : generate className t = .ok m) :
    ∃ calls, Linked t m calls := by
  simp only [generate, bind_eq_ok, pure_eq_ok] at h
  obtain ⟨calls, hcalls, ms, hms, rfl⟩ := h
  have hfit := callsFit ht.names hcalls
  obtain ⟨hto, hof⟩ := mem_methods hms
  have hspec : ∀ {f : Function} {x : Method}, f ∈ t → f.method calls = .ok x →
      className ++ "/" ++ x.spec = methodName className f.name f.signature := by
    intro f x hf hx
    have hgrown := (Function.method_grown hfit (ht.functions f hf) hx).spec
    rw [hgrown]
    exact methodName_eq className f
  refine ⟨calls, ht, hcalls, ?_, ?_⟩
  · intro f hf
    obtain ⟨x, hx, hmethod⟩ := hto f hf
    cases hfind : Module.find? ⟨className, ms⟩ (methodName className f.name f.signature) with
    | none =>
      have hnone := List.find?_eq_none.mp hfind x hx
      simp [hspec hf hmethod] at hnone
    | some y =>
      -- whatever is found has the name of `f`, and so is the method of `f`
      obtain ⟨g, hg, hy⟩ := hof y (List.mem_of_find?_eq_some hfind)
      have hname : className ++ "/" ++ y.spec = methodName className f.name f.signature := by
        simpa using List.find?_some hfind
      rw [hspec hg hy] at hname
      obtain rfl := function_unique ht.names hg hf (methodName_inj hname)
      exact ⟨y, rfl, Function.method_body hfit (ht.functions g hg) hy⟩
  · intro e he
    refine ⟨?_, ?_⟩
    · -- no method of the program hides a built-in one
      refine List.find?_eq_none.mpr fun y hy => ?_
      obtain ⟨g, hg, hmethod⟩ := hof y hy
      rw [decide_eq_true_eq, hspec hg hmethod]
      intro heq
      exact name_ne_builtin ht.names hg he (methodName_inj heq)
    · cases hfind : Module.builtin? ⟨className, ms⟩ (methodName className e.1 e.2) with
      | none =>
        have hnone := List.find?_eq_none.mp hfind e he
        simp at hnone
      | some e' =>
        have hname : methodName className e'.1 e'.2 = methodName className e.1 e.2 := by
          simpa using List.find?_some hfind
        rw [builtin_unique (List.mem_of_find?_eq_some hfind) he (methodName_inj hname)]

/-! ## Endings -/

/-- The machine has one ending at most. -/
theorem Module.EndsWith.unique {w : World P} {a b : Ending P} (ha : m.EndsWith w a)
    (hb : m.EndsWith w b) : a = b := by
  obtain ⟨start, hstart, ha⟩ := ha
  obtain ⟨start', hstart', hb⟩ := hb
  obtain rfl := Option.some.inj (hstart.symm.trans hstart')
  have hdet : Relator.RightUnique fun c d : Config P => step m c = some d :=
    fun c d e hd he => Option.some.inj (hd.symm.trans he)
  have hend : ∀ {e : Ending P} {c : Config P}, Steps m (.ofEnding e) c → c = .ofEnding e := by
    intro e c h
    rcases Relation.ReflTransGen.cases_head h with heq | ⟨d, hd, -⟩
    · exact heq.symm
    · cases e <;> cases hd
  -- of two runs from one start, one goes on where the other ends; but an ending has no step
  have hsame : Config.ofEnding a = Config.ofEnding b := by
    rcases Relation.ReflTransGen.total_of_right_unique hdet ha hb with h | h
    · exact (hend h).symm
    · exact hend h
  cases a <;> cases b <;> cases hsame <;> rfl

theorem main_mem (ht : ProgramWellTyped t) :
    ∃ f ∈ t, f.name = "main" ∧ f.signature = ⟨.void, []⟩ := by
  rcases List.mem_append.mp (mem_of_lookup ht.main) with hbuiltin | hown
  · exact absurd hbuiltin (by decide)
  · obtain ⟨f, hf, heq⟩ := List.mem_map.mp hown
    simp only [Prod.mk.injEq] at heq
    exact ⟨f, hf, heq.1, heq.2⟩

theorem Mirrors.steps_ending {α : Type} {start : Config P}
    {goal : α → Core.State P → Config P → Prop} {r : EStateM.Result Stop (Core.State P) α}
    (h : Mirrors m start goal r) (hgoal : ∀ a s c, goal a s c → c = .halted s.world)
    {ending : Ending P} (hend : endingOf r = some ending) : Steps m start (.ofEnding ending) := by
  cases r with
  | ok a s =>
    cases hend
    obtain ⟨c, hc, hg⟩ := h
    rw [hgoal a s c hg] at hc
    exact hc
  | error e s =>
    cases e
    · cases hend
      exact h
    · cases hend
    · cases hend

/-- A run of `main` that ends is mirrored to its end. -/
theorem Linked.endsWith (hl : Linked t m calls) {w : World P} {ending : Ending P}
    (h : t.EndsWith w ending) : m.EndsWith w ending := by
  obtain ⟨fuel, hend⟩ := h
  obtain ⟨f, hf, hname, hsig⟩ := main_mem hl.typed
  obtain ⟨x, hx, hbody⟩ := hl.own f hf
  rw [hname, hsig] at hx
  refine ⟨_, by rw [Module.start?, hx, Option.map_some, hbody], ?_⟩
  cases fuel with
  | zero =>
    rw [Core.call] at hend
    cases hend
  | succ n =>
    have hargs : ([] : List (Value P)).map Value.ty = f.signature.params := by
      rw [hsig]
      rfl
    have hrun := (mirrored P hl n).body hl hf hargs [] ⟨.empty, w⟩
    rw [Core.call] at hend
    cases hg : t.find? fun g => g.name = "main" with
    | none =>
      have hnone := List.find?_eq_none.mp hg f hf
      simp [hname] at hnone
    | some g =>
      obtain ⟨hmem, hgname⟩ := find?_function hg
      obtain rfl := function_unique hl.typed.names hmem hf (hgname.trans hname.symm)
      simp only [hg] at hend
      exact hrun.steps_ending (fun x s c hc => hc.2.2) hend

/-- If an accepted program ends, normally or in a trap, then its module ends in the same way and in
no other, with the same input read and the same output written. -/
theorem generate_preserves_ending {p : Surface.Program} (hcheck : checkProgram p = .ok t)
    (hgenerate : generate className t = .ok m) {w : World P} {ending : Ending P}
    (h : t.EndsWith w ending) (other : Ending P) : m.EndsWith w other ↔ other = ending := by
  obtain ⟨calls, hl⟩ := linked_of_generate (checkProgram_wellTyped hcheck).1 hgenerate
  have hends := hl.endsWith h
  constructor
  · intro hother
    exact hother.unique hends
  · rintro rfl
    exact hends

/-- Doubles that are integers, and ints as input. -/
def integers : Platform where
  Real := Int
  ofDouble d := (if d.isNegative then -1 else 1) *
    (d.significand * Double.power 2 d.scale / Double.power 2 (-d.scale) : Nat)
  ofInt := Int32.toInt
  add := (· + ·)
  sub := (· - ·)
  mul := (· * ·)
  div := Int.tdiv
  rem := Int.tmod
  neg := (- ·)
  compare := Comparison.ofOrder
  Input := List Int32
  readInt
    | i :: rest => some (i, rest)
    | [] => none
  readDouble
    | i :: rest => some (i.toInt, rest)
    | [] => none
  readString _ := none

/-- `void main() { int i = readInt(); while (true) { printDouble(6 / i); i--; } }` -/
def divideDown : Surface.Program :=
  let i : Name := ⟨"i", .nowhere⟩
  let six : Surface.Expr := .const ⟨.int 6, .nowhere⟩
  [{ ret := .void
     name := ⟨"main", .nowhere⟩
     params := []
     body := [
       .init .int i (.call ⟨"readInt", .nowhere⟩ []),
       .whileLoop (.const ⟨.bool true, .nowhere⟩) (.block [
         .expr (.call ⟨"printDouble", .nowhere⟩ [.binary ⟨.div, .nowhere⟩ six (.var i)]),
         .expr (.step .postDecrement i)])] }]

/-- The core program of `divideDown`. -/
def divideDownCore : Program :=
  [{ name := "main"
     signature := ⟨.void, []⟩
     params := []
     body := [
       .init ⟨⟨0⟩, "i", .int⟩ (.call "readInt" [] .int),
       .whileLoop (.const (.bool true)) (.block [
         .expr (.call "printDouble" [.cast .double
           (.binary .div (.const (.int 6)) (.var ⟨0⟩ .int) .int .int)] .void),
         .expr (.step .postDecrement ⟨0⟩ .int)])] }]

theorem generate_preserves_ending_divideDown :
    let w : World integers := ⟨[2], []⟩
    let ending : Ending integers := .trapped
      ⟨[], [.read (.int 2), .printed (.double (3 : Int)), .printed (.double (6 : Int))]⟩
    ∃ t m, checkProgram divideDown = .ok t ∧ generate "Down" t = .ok m ∧ t.EndsWith w ending ∧
      ∀ other, m.EndsWith w other ↔ other = ending := by
  intro w ending
  have hcheck : checkProgram divideDown = .ok divideDownCore := rfl
  have hends : divideDownCore.EndsWith w ending := ⟨20, rfl⟩
  have hall : ∀ m, generate "Down" divideDownCore = .ok m → ∃ t m,
      checkProgram divideDown = .ok t ∧ generate "Down" t = .ok m ∧ t.EndsWith w ending ∧
        ∀ other, m.EndsWith w other ↔ other = ending :=
    fun m hgenerate => ⟨_, m, hcheck, hgenerate, hends,
      generate_preserves_ending hcheck hgenerate hends⟩
  have hgenerate : ∃ m, generate "Down" divideDownCore = .ok m := by
    simp only [generate, divideDownCore, methods, Function.method_eq]
    exact ⟨_, rfl⟩
  obtain ⟨m, hm⟩ := hgenerate
  exact hall m hm

end MiniC.Jvm
