import MiniC.Jvm.Module
import MiniC.Proofs.Core.Building
import MiniC.Proofs.Core.CodeLabels
import MiniC.Proofs.Core.CodeStack
import MiniC.Proofs.Jvm.CallTable

/-!
# Methods of well-typed functions

Building the method of a well-typed function can fail only because its parameters and variables need
more words than the machine can address. Otherwise the body of the method is the code of the
function, with the slots that the order of the variables determines.
-/

namespace MiniC.Core

open Jvm

variable {calls : CallTable} {funs : FunctionTypes} {sigs : MethodTypes} {slot : VarId → Nat}

namespace Function

/-- The types of a function's variables, by number. -/
def varTypes (f : Function) : VarTypes := f.vars.map VarDecl.ty

/-- The instructions of a function's method. -/
def instructions (calls : CallTable) (f : Function) : List Instruction :=
  lower (slotIn f.varTypes) (f.code calls)

/-- A void function that does not end in a return gets one put behind it. -/
theorem instructions_eq (f : Function) :
    f.instructions calls = lower (slotIn f.varTypes) (codeOfBlock calls 0 f.body) ++
      if f.signature.ret = .void && !endsInReturn (codeOfBlock calls 0 f.body) then [.ret .void]
      else [] := by
  unfold instructions code
  rw [lower_append, lower_append, lower_reserve, List.nil_append]
  split <;> rfl

variable {f : Function}

theorem WellTyped.noVoid_params (hf : f.WellTyped funs) : NoVoid (f.params.map VarDecl.ty) := by
  intro ty hty
  obtain ⟨v, hv, rfl⟩ := List.mem_map.mp hty
  exact hf.params.2 v hv

/-- No variable of a well-typed function is void. -/
theorem WellTyped.noVoid_varTypes (hf : f.WellTyped funs) : NoVoid f.varTypes := by
  rw [varTypes, vars, List.map_append]
  exact hf.noVoid_params.extend (BlockWellTyped.newVars f.body hf.body)

theorem code_declares (hcalls : CallsFit calls funs sigs) (hf : f.WellTyped funs) :
    Declares [] (f.code calls) f.varTypes := by
  unfold code varTypes vars
  rw [List.map_append]
  refine Declares.append_uses (Declares.append (declares_reserve hf.params) ?_) ?_
  · rw [List.nil_append]
    exact codeOfBlock_declares hcalls f.body 0 hf.body
  · split
    · exact uses_emit _
    · exact ⟨trivial, rfl⟩

theorem code_leads (hcalls : CallsFit calls funs sigs) (hf : f.WellTyped funs)
    {out : List (Label × StackTy)} {σ : StackTy} : Leads sigs slot out σ (f.code calls) σ := by
  unfold code
  refine Leads.append (Leads.append (leads_reserve _)
    (codeOfBlock_leads hcalls f.body 0 hf.noVoid_params hf.body)) ?_
  split
  · exact leads_ret .void
  · exact Consistent.nil

/-- The labels of a function are numbered from zero on. -/
theorem code_labels (hf : f.WellTyped funs) :
    PlacesLabels 0 (labelsOfBlock f.body) (lower slot (f.code calls)) := by
  unfold code
  rw [lower_append, lower_append]
  refine PlacesLabels.append_none ?_ ?_
  · intro i
    rw [labelsIn_append, labelsIn_reserve, List.nil_append]
    exact codeOfBlock_labels f.body 0 hf.body i
  · split <;> rfl

/-- The method of a function that fits the machine. -/
theorem method_of_room (hcalls : CallsFit calls funs sigs) (hf : f.WellTyped funs)
    (hroom : wordsOf f.varTypes ≤ maxLocals) :
    ∃ m, f.method calls = .ok m ∧
      Method.Grown sigs f.varTypes [] [] [] (f.code calls) (Method.empty f.spec) m := by
  obtain ⟨hplaced, hres⟩ := code_declares hcalls hf
  have hvars : [] ++ reserved (f.code calls) = f.varTypes := by rw [hres, List.nil_append]
  have hleads : Leads sigs (slotIn f.varTypes) [] [] (f.code calls) [] := code_leads hcalls hf
  obtain ⟨m, hm, hgrown⟩ := Method.run_of_room (Method.holds_empty f.spec) hplaced
    ⟨[], by rw [hvars, List.append_nil]⟩ rfl hleads.flow (by rwa [hvars])
  refine ⟨m.relabel (labelsOfBlock f.body), ?_, ?_⟩
  · rw [method_eq, hm]
    rfl
  · -- nothing but the number of labels is different
    exact ⟨hgrown.spec, hgrown.body, hgrown.depth, hgrown.maxDepth,
      ⟨hgrown.holds.locals, hgrown.holds.slots⟩⟩

/-- A function whose variables do not fit has no method. -/
theorem method_of_no_room (hcalls : CallsFit calls funs sigs) (hf : f.WellTyped funs)
    (hroom : ¬ wordsOf f.varTypes ≤ maxLocals) : f.method calls = .error .tooManyLocals := by
  obtain ⟨hplaced, hres⟩ := code_declares hcalls hf
  have hvars : [] ++ reserved (f.code calls) = f.varTypes := by rw [hres, List.nil_append]
  have hleads : Leads sigs (slotIn f.varTypes) [] [] (f.code calls) [] := code_leads hcalls hf
  rw [method_eq, Method.run_of_no_room (σ := []) (Method.holds_empty f.spec) hplaced
    ⟨[], by rw [hvars, List.append_nil]⟩ rfl hleads.flow (by decide) (by rwa [hvars])]
  rfl

/-- A function that has a method has room for its variables. -/
theorem room_of_method {m : Method} (hcalls : CallsFit calls funs sigs) (hf : f.WellTyped funs)
    (hm : f.method calls = .ok m) : wordsOf f.varTypes ≤ maxLocals := by
  by_cases hroom : wordsOf f.varTypes ≤ maxLocals
  · exact hroom
  · rw [method_of_no_room hcalls hf hroom] at hm
    cases hm

theorem method_grown {m : Method} (hcalls : CallsFit calls funs sigs) (hf : f.WellTyped funs)
    (hm : f.method calls = .ok m) :
    Method.Grown sigs f.varTypes [] [] [] (f.code calls) (Method.empty f.spec) m := by
  obtain ⟨m', hm', hgrown⟩ := method_of_room hcalls hf (room_of_method hcalls hf hm)
  obtain rfl := Except.ok.inj (hm'.symm.trans hm)
  exact hgrown

/-- The body of the method is the code of the function, with its variables in their slots. -/
theorem method_body {m : Method} (hcalls : CallsFit calls funs sigs) (hf : f.WellTyped funs)
    (hm : f.method calls = .ok m) : m.body.toList = f.instructions calls := by
  rw [(method_grown hcalls hf hm).body]
  rfl

/-- A method places each label that was given away while it was built, and no other. -/
theorem method_labels {m : Method} (hcalls : CallsFit calls funs sigs) (hf : f.WellTyped funs)
    (hm : f.method calls = .ok m) : PlacesLabels 0 m.nextLabel m.body.toList := by
  have hnext : m.nextLabel = labelsOfBlock f.body := by
    rw [method_eq] at hm
    obtain ⟨m₁, -, rfl⟩ := map_eq_ok.mp hm
    rfl
  rw [method_body hcalls hf hm, hnext]
  exact code_labels hf

end Function

end MiniC.Core
