import MiniC.Jvm.CallTable
import MiniC.Proofs.Core.Checked
import MiniC.Proofs.Core.CodeVariables

/-!
# Call tables of well-typed programs

The full name of a method is its class, its function and its descriptor written together. The
descriptor starts at the last parenthesis that opens, so the function can be read off the name,
whatever characters the function's own name has.

A call table exists if the arguments of every function fit the machine, and then it lists each
function with its method.
-/

namespace MiniC.Jvm

/-! ## Names -/

/-- The full name of the method of the function `f`. -/
def methodName (className f : String) (s : Signature) : String :=
  className ++ "/" ++ f ++ s.descriptor

/-- A descriptor has its one opening parenthesis in front. -/
theorem descriptor_toList (s : Signature) :
    ∃ rest, s.descriptor.toList = '(' :: rest ∧ '(' ∉ rest := by
  have hty : ∀ ty : Ty, '(' ∉ ty.descriptor.toList := by
    intro ty
    cases ty <;> decide
  refine ⟨(s.params.map Ty.descriptor).flatMap String.toList ++ ')' :: s.ret.descriptor.toList,
    ?_, ?_⟩
  · simp [Signature.descriptor, String.toList_append, String.toList_join]
  · intro hmem
    rcases List.mem_append.mp hmem with hmem | hmem
    · obtain ⟨d, hd, hmem⟩ := List.mem_flatMap.mp hmem
      obtain ⟨ty, -, rfl⟩ := List.mem_map.mp hd
      exact hty ty hmem
    · rcases List.mem_cons.mp hmem with hmem | hmem
      · exact absurd hmem (by decide)
      · exact hty s.ret hmem

/-- What stands before the last occurrence of an element is determined. -/
theorem append_cons_inj_of_not_mem {α : Type} {a : α} {as bs rest rest' : List α}
    (h : as ++ a :: rest = bs ++ a :: rest') (hr : a ∉ rest) (hr' : a ∉ rest') : as = bs := by
  rcases List.append_eq_append_iff.mp h with ⟨mid, rfl, hmid⟩ | ⟨mid, rfl, hmid⟩
  · cases mid with
    | nil => simp
    | cons b mid =>
      simp only [List.cons_append, List.cons.injEq] at hmid
      exact absurd (hmid.2 ▸ by simp) hr
  · cases mid with
    | nil => simp
    | cons b mid =>
      simp only [List.cons_append, List.cons.injEq] at hmid
      exact absurd (hmid.2 ▸ by simp) hr'

/-- Methods of one class with one name belong to one function. -/
theorem methodName_inj {className f g : String} {s t : Signature}
    (h : methodName className f s = methodName className g t) : f = g := by
  obtain ⟨r, hr, hnot⟩ := descriptor_toList s
  obtain ⟨r', hr', hnot'⟩ := descriptor_toList t
  -- the names may hold any characters: it is the last parenthesis that ends them
  have hlist := congrArg String.toList h
  simp only [methodName, String.toList_append, List.append_assoc, hr, hr'] at hlist
  exact String.toList_inj.mp (append_cons_inj_of_not_mem
    (List.append_cancel_left (List.append_cancel_left hlist)) hnot hnot')

/-! ## Tables -/

/-- The entry of a function. -/
def calleeOf (className : String) (entry : String × Signature) : String × Callee :=
  (entry.1, ⟨methodName className entry.1 entry.2, entry.2.paramWords, entry.2.ret⟩)

theorem callee_eq {className f : String} {s : Signature} :
    callee className f s =
      if s.paramWords ≤ maxLocals then .ok (calleeOf className (f, s)).2
      else .error .tooManyLocals := by
  unfold callee Signature.argWords
  split <;> rfl

/-- Functions whose parameters fit all get their entries, the last one in front. -/
theorem addCallees_of_room {className : String} {fs : List (String × Signature)} :
    ∀ {table : CallTable}, (∀ e ∈ fs, e.2.paramWords ≤ maxLocals) →
      addCallees className table fs = .ok ((fs.map (calleeOf className)).reverse ++ table) := by
  induction fs with
  | nil => intro table _; rfl
  | cons e fs ih =>
    intro table hroom
    obtain ⟨f, s⟩ := e
    have hhead : s.paramWords ≤ maxLocals := hroom (f, s) (by simp)
    simp only [addCallees, callee_eq, if_pos hhead]
    refine (ih fun e he => hroom e (by simp [he])).trans ?_
    simp [calleeOf]

/-- One function whose parameters do not fit refuses the table. -/
theorem addCallees_of_no_room {className : String} {fs : List (String × Signature)} :
    ∀ {table : CallTable} {e : String × Signature}, e ∈ fs → ¬ e.2.paramWords ≤ maxLocals →
      addCallees className table fs = .error .tooManyLocals := by
  induction fs with
  | nil => intro table e he; cases he
  | cons e' fs ih =>
    intro table e he hroom
    obtain ⟨f, s⟩ := e'
    simp only [addCallees, callee_eq]
    by_cases hhead : s.paramWords ≤ maxLocals
    · simp only [if_pos hhead]
      rcases List.mem_cons.mp he with rfl | he
      · exact absurd hhead hroom
      · exact ih he hroom
    · simp only [if_neg hhead]
      rfl

open MiniC.Core

/-- The signatures of the methods of a program's class. -/
def methodTypes (className : String) (p : Program) : MethodTypes := fun m =>
  ((functionsOf p).find? fun e => methodName className e.1 e.2 = m).map Prod.snd

theorem methodTypes_methodName {className : String} {p : Program} {f : String} {s : Signature}
    (hnames : ((functionsOf p).map Prod.fst).Nodup) (hf : functionTypes p f = some s) :
    methodTypes className p (methodName className f s) = some s := by
  have hmem : (f, s) ∈ functionsOf p := mem_of_lookup hf
  unfold methodTypes
  cases hfind : (functionsOf p).find? fun e =>
      methodName className e.1 e.2 = methodName className f s with
  | none =>
    have hnone := List.find?_eq_none.mp hfind (f, s) hmem
    simp at hnone
  | some e =>
    have hname : methodName className e.1 e.2 = methodName className f s := by
      simpa using List.find?_some hfind
    have hsame : functionTypes p e.1 = some e.2 :=
      (lookup_eq_some_iff_mem hnames).mpr (List.mem_of_find?_eq_some hfind)
    rw [methodName_inj hname, hf] at hsame
    rw [Option.map_some, hsame]

/-- The table of a program whose arguments fit the machine. -/
theorem callTable_of_room {className : String} {p : Program}
    (hroom : ∀ e ∈ functionsOf p, e.2.paramWords ≤ maxLocals) :
    callTable className p = .ok ((functionsOf p).map (calleeOf className)).reverse := by
  refine (addCallees_of_room hroom).trans ?_
  rw [List.append_nil]

theorem lookup_callTable {className : String} {p : Program} {calls : CallTable} {f : String}
    {s : Signature} (hnames : ((functionsOf p).map Prod.fst).Nodup)
    (hcalls : callTable className p = .ok calls) (hf : functionTypes p f = some s) :
    calls.lookup f = some ⟨methodName className f s, s.paramWords, s.ret⟩ := by
  have hroom : ∀ e ∈ functionsOf p, e.2.paramWords ≤ maxLocals := by
    intro e he
    by_cases hle : e.2.paramWords ≤ maxLocals
    · exact hle
    · exact absurd ((addCallees_of_no_room he hle).symm.trans hcalls) (by simp)
  rw [callTable_of_room hroom] at hcalls
  obtain rfl := Except.ok.inj hcalls
  have hkeys : ((functionsOf p).map (calleeOf className)).map Prod.fst =
      (functionsOf p).map Prod.fst := by
    rw [List.map_map]
    rfl
  rw [← lookup_eq_of_perm (hkeys ▸ hnames) (List.reverse_perm _).symm,
    lookup_eq_some_iff_mem (hkeys ▸ hnames)]
  exact List.mem_map.mpr ⟨(f, s), mem_of_lookup hf, rfl⟩

/-- The table calls every function under a method of its own signature. -/
theorem callsFit {className : String} {p : Program} {calls : CallTable}
    (hnames : ((functionsOf p).map Prod.fst).Nodup) (hcalls : callTable className p = .ok calls) :
    CallsFit calls (functionTypes p) (methodTypes className p) := by
  intro f s hf
  exact ⟨_, lookup_callTable hnames hcalls hf, rfl, rfl, methodTypes_methodName hnames hf⟩

end MiniC.Jvm
