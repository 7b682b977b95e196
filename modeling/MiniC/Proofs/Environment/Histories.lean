import Mathlib.Data.List.Infix
import Mathlib.Data.List.Induction
import MiniC.Proofs.Core.Checked
import MiniC.Proofs.Runs

/-!
# An environment answers from its history

What an environment answers is settled by the calls made so far and what they were answered. A name
of a variable stands for its latest declaration among those whose scope is still open; variables are
numbered from zero since the last entry into a function; the first function of a name stays the one;
and a call that fails might as well not have been made.

The history knows nothing of scopes as such. A scope is followed through the calls behind the one
that opened it, or that declared something in it: it is open as long as no function is entered and
no more scopes are closed than opened. The number of scopes inside it is the excess of the opened
ones, and that is its place among the scopes of the environment.
-/

namespace MiniC.Environment

/-! ## Calls and answers -/

/-- One use of an environment. -/
inductive Call where
  | addFunction (f : String) (s : Signature)
  | lookupFunction (f : String)
  | enterFunction
  | pushScope
  | popScope
  | declare (ty : Ty) (x : String)
  | resolve (x : String)
deriving DecidableEq

/-- What a call gives back. -/
inductive Reply where
  | done
  | signature (s : Signature)
  | declared (v : VarId)
  | found (v : Variable)
deriving DecidableEq

/-- Answers a call. -/
def perform (env : Environment) : Call → Except NameProblem Reply × Environment
  | .addFunction f s =>
    let (r, env') := env.addFunction f s
    (r.map fun _ => .done, env')
  | .lookupFunction f => ((env.lookupFunction f).map .signature, env)
  | .enterFunction => (.ok .done, env.enterFunction)
  | .pushScope => (.ok .done, env.pushScope)
  | .popScope => (.ok .done, env.popScope)
  | .declare ty x =>
    let (r, env') := env.declare ty x
    (r.map .declared, env')
  | .resolve x => ((env.resolve x).map .found, env)

/-- A call that was made, and its answer. -/
abbrev Event := Runs.Event Call (Except NameProblem Reply)

/-! ## What a history tells -/

namespace Event

def IsEntry (e : Event) : Prop := e.call = .enterFunction

/-- The event opens a scope. -/
def Opens (e : Event) : Prop := e.call = .enterFunction ∨ e.call = .pushScope

/-- The event is a declaration that made `x` stand for `w`. -/
def Declares (x : String) (w : Variable) (e : Event) : Prop :=
  e = ⟨.declare w.ty x, .ok (.declared w.id)⟩

/-- The number that a declaration was given. -/
def declared? (e : Event) : Option VarId :=
  match e.answer with
  | .ok (.declared v) => some v
  | _ => none

instance : DecidablePred IsEntry := fun e => inferInstanceAs (Decidable (e.call = .enterFunction))

end Event

/-- How often a call was made. -/
def times (c : Call) (h : List Event) : Nat := h.countP (·.call = c)

/-- A scope that was the innermost one before `later` is open behind it. -/
def StillOpen (later : List Event) : Prop :=
  (∀ e ∈ later, ¬ e.IsEntry) ∧
    ∀ front, front <+: later → times .popScope front ≤ times .pushScope front

/-- A scope that was the innermost one before `later` is open behind it, with `k` scopes inside. -/
def Encloses (later : List Event) (k : Nat) : Prop :=
  StillOpen later ∧ times .pushScope later = times .popScope later + k

/-- There is an event of the kind `P` whose scope is open, with `k` scopes inside. -/
def OpenAt (P : Event → Prop) (h : List Event) (k : Nat) : Prop :=
  ∃ before e later, h = before ++ e :: later ∧ P e ∧ Encloses later k

/-- `w` is what the latest declaration of `x` gave among those whose scope is still open. -/
def Latest (h : List Event) (x : String) (w : Variable) : Prop :=
  ∃ before e later, h = before ++ e :: later ∧ e.Declares x w ∧ StillOpen later ∧
    ∀ middle e' later' w', later = middle ++ e' :: later' → e'.Declares x w' → ¬ StillOpen later'

/-- The events since the last entry into a function. -/
def sinceEntry (h : List Event) : List Event :=
  (h.reverse.takeWhile fun e => ¬ e.IsEntry).reverse

/-- The numbers that the declarations since the last entry into a function were given. -/
def numbers (h : List Event) : List VarId := (sinceEntry h).filterMap Event.declared?

/-- The signature in the first call that adds a function `f`. -/
def firstSignature? (f : String) (h : List Event) : Option Signature :=
  h.findSome? fun e =>
    match e.call with
    | .addFunction g s => if g = f then some s else none
    | _ => none

/-! ## Scopes along a history -/

variable {h later : List Event} {e : Event} {k : Nat}

theorem times_append (c : Call) (a b : List Event) : times c (a ++ b) = times c a + times c b :=
  List.countP_append

theorem times_singleton (c : Call) (e : Event) : times c [e] = if e.call = c then 1 else 0 := by
  simp [times, List.countP_singleton]

theorem stillOpen_nil : StillOpen [] := by
  refine ⟨List.forall_mem_nil _, fun front hfront => ?_⟩
  rw [List.prefix_nil.mp hfront]
  exact Nat.le_refl _

theorem StillOpen.left {a b : List Event} (hopen : StillOpen (a ++ b)) : StillOpen a :=
  ⟨fun e he => hopen.1 e (List.mem_append_left b he),
    fun front hfront => hopen.2 front (hfront.trans (List.prefix_append a b))⟩

/-- A scope stays open through one more event unless that event enters a function or closes one
scope too many. -/
theorem stillOpen_concat :
    StillOpen (later ++ [e]) ↔ StillOpen later ∧ ¬ e.IsEntry ∧
      times .popScope (later ++ [e]) ≤ times .pushScope (later ++ [e]) := by
  constructor
  · intro hopen
    exact ⟨hopen.left, hopen.1 e (by simp), hopen.2 _ (List.prefix_refl _)⟩
  · rintro ⟨hopen, hentry, hlast⟩
    constructor
    · intro d hd
      rcases List.mem_append.mp hd with hd | hd
      · exact hopen.1 d hd
      · exact List.mem_singleton.mp hd ▸ hentry
    · intro front hfront
      rcases List.prefix_concat_iff.mp hfront with rfl | hfront
      · exact hlast
      · exact hopen.2 front hfront

/-- A scope that is open has some number of scopes inside. -/
theorem StillOpen.encloses (hopen : StillOpen later) : ∃ k, Encloses later k :=
  ⟨times .pushScope later - times .popScope later, hopen, by
    have hle := hopen.2 later (List.prefix_refl later)
    omega⟩

theorem encloses_nil : Encloses [] k ↔ k = 0 := by
  simp [Encloses, stillOpen_nil, times, @eq_comm _ k]

/-- That number is determined by the history. -/
theorem Encloses.unique {j : Nat} (hj : Encloses later j) (hk : Encloses later k) : j = k := by
  have hcount := hj.2.symm.trans hk.2
  omega

/-- What is inside a scope at the end was opened behind any point in between, or before it. -/
theorem Encloses.split {a b : List Event} {j : Nat} (hk : Encloses (a ++ b) k)
    (hj : Encloses b j) : ∃ i, Encloses a i ∧ k = i + j := by
  obtain ⟨i, hi⟩ := hk.1.left.encloses
  have hcount := hk.2
  rw [times_append, times_append, hi.2, hj.2] at hcount
  exact ⟨i, hi, by omega⟩

/-- How a call moves a scope that has `k` scopes inside; `none` closes it. -/
def Call.shift : Call → Nat → Option Nat
  | .enterFunction, _ => none
  | .pushScope, k => some (k + 1)
  | .popScope, 0 => none
  | .popScope, k + 1 => some k
  | _, k => some k

/-- Entering a function closes every scope; opening and closing a scope count up and down. -/
theorem Call.shift_eq_some {c : Call} {j : Nat} :
    c.shift j = some k ↔ c ≠ .enterFunction ∧
      j + (if c = .pushScope then 1 else 0) = k + if c = .popScope then 1 else 0 := by
  cases c with
  | popScope => cases j <;> simp [shift]
  | _ => simp [shift]

/-- One more event moves every scope as its call says. -/
theorem encloses_concat :
    Encloses (later ++ [e]) k ↔ ∃ j, Encloses later j ∧ e.call.shift j = some k := by
  simp only [Encloses, stillOpen_concat, Call.shift_eq_some, times_append, times_singleton,
    Event.IsEntry]
  constructor
  · rintro ⟨⟨hopen, hentry, -⟩, hcount⟩
    have hle := hopen.2 later (List.prefix_refl later)
    refine ⟨times .pushScope later - times .popScope later, ⟨hopen, ?_⟩, hentry, ?_⟩ <;> omega
  · rintro ⟨j, ⟨hopen, hj⟩, hentry, hshift⟩
    refine ⟨⟨hopen, hentry, ?_⟩, ?_⟩ <;> omega

/-- An open scope was opened by the last event, or it was open before and has been moved. -/
theorem openAt_concat {P : Event → Prop} :
    OpenAt P (h ++ [e]) k ↔
      (P e ∧ k = 0) ∨ ∃ j, OpenAt P h j ∧ e.call.shift j = some k := by
  constructor
  · rintro ⟨before, d, later, heq, hd, hlater⟩
    rcases List.eq_nil_or_concat' later with rfl | ⟨later, last, rfl⟩
    · obtain ⟨rfl, hlast⟩ := List.append_inj' heq rfl
      cases hlast
      exact .inl ⟨hd, encloses_nil.mp hlater⟩
    · rw [← List.cons_append, ← List.append_assoc] at heq
      obtain ⟨rfl, hlast⟩ := List.append_inj' heq rfl
      cases hlast
      obtain ⟨j, hj, hshift⟩ := encloses_concat.mp hlater
      exact .inr ⟨j, ⟨before, d, later, rfl, hd, hj⟩, hshift⟩
  · rintro (⟨he, rfl⟩ | ⟨j, ⟨before, d, later, rfl, hd, hj⟩, hshift⟩)
    · exact ⟨h, e, [], rfl, he, encloses_nil.mpr rfl⟩
    · exact ⟨before, d, later ++ [e], by simp, hd, encloses_concat.mpr ⟨j, hj, hshift⟩⟩

/-- An event of another kind only moves the scopes. -/
theorem openAt_concat_of_not {P : Event → Prop} (hP : ¬ P e) :
    OpenAt P (h ++ [e]) k ↔ ∃ j, OpenAt P h j ∧ e.call.shift j = some k := by
  simp [openAt_concat, hP]

/-- An event of another kind that leaves the scopes where they are changes nothing. -/
theorem openAt_concat_of_shift {P : Event → Prop} (hP : ¬ P e)
    (hshift : ∀ j, e.call.shift j = some j) : OpenAt P (h ++ [e]) k ↔ OpenAt P h k := by
  simp [openAt_concat_of_not hP, hshift]

/-! ## Numbers and functions along a history -/

theorem numbers_concat_entry (he : e.IsEntry) : numbers (h ++ [e]) = [] := by
  simp [numbers, sinceEntry, he]

/-- Inside a function, numbers are given out one behind the other. -/
theorem numbers_concat (he : ¬ e.IsEntry) :
    numbers (h ++ [e]) = numbers h ++ e.declared?.toList := by
  cases hd : e.declared? <;> simp [numbers, sinceEntry, he, hd]

/-- The first signature that was entered for a name stays. -/
theorem firstSignature?_concat (f : String) :
    firstSignature? f (h ++ [e]) = (firstSignature? f h).or (firstSignature? f [e]) :=
  List.findSome?_append

theorem Event.not_declares (he : e.declared? = none) (x : String) (w : Variable) :
    ¬ e.Declares x w := by
  rintro rfl
  cases he

/-- An event declares one variable at most. -/
theorem Event.Declares.inj {x y : String} {w w' : Variable} (h : e.Declares x w)
    (h' : e.Declares y w') : x = y ∧ w = w' := by
  cases w
  cases w'
  cases h
  cases h'
  exact ⟨rfl, rfl⟩

/-! ## Where the environment keeps what -/

variable {env : Environment}

/-- A function that cannot be added leaves no trace. -/
theorem addFunction_error {f : String} {s : Signature} {e : NameProblem} {env' : Environment}
    (h : env.addFunction f s = (.error e, env')) : env' = env := by
  unfold addFunction at h
  split at h
  · cases h
    rfl
  · cases h

/-- A variable that cannot be declared leaves no trace. -/
theorem declare_error {ty : Ty} {x : String} {e : NameProblem} {env' : Environment}
    (h : env.declare ty x = (.error e, env')) : env' = env := by
  unfold declare at h
  split at h
  · cases h
    rfl
  · dsimp only at h
    split at h
    · cases h
      rfl
    · split at h
      · cases h
        rfl
      · cases h

/-- What the scope with `k` scopes inside says about `x`. -/
def lookupAt (env : Environment) (k : Nat) (x : String) : Option Variable :=
  env.scopes[k]?.bind (·.lookup x)

theorem lookupAt_enterFunction (k : Nat) (x : String) : env.enterFunction.lookupAt k x = none := by
  cases k <;> rfl

/-- Opening a scope moves all entries one level out. -/
theorem lookupAt_pushScope (k : Nat) (x : String) :
    env.pushScope.lookupAt (k + 1) x = env.lookupAt k x := rfl

/-- Closing a scope moves all entries one level in. -/
theorem lookupAt_popScope (k : Nat) (x : String) :
    env.popScope.lookupAt k x = env.lookupAt (k + 1) x := by
  simp [lookupAt, popScope]

/-- A declaration is found in the innermost scope, where the name was unknown. -/
theorem lookupAt_declare {ty : Ty} {x : String} {v : VarId} {env' : Environment}
    (hd : env.declare ty x = (.ok v, env')) :
    env.lookupAt 0 x = none ∧ env'.lookupAt 0 x = some ⟨v, ty⟩ ∧
      ∀ k y, ¬ (k = 0 ∧ y = x) → env'.lookupAt k y = env.lookupAt k y := by
  obtain ⟨-, scope, outer, hscopes, hnone, rfl, rfl⟩ := declare_eq_ok.mp hd
  refine ⟨by simpa [lookupAt, hscopes] using hnone, by simp [lookupAt], fun k y hne => ?_⟩
  cases k with
  | zero =>
    have hyx : (y == x) = false := beq_eq_false_iff_ne.mpr fun hyx => hne ⟨rfl, hyx⟩
    simp [lookupAt, hscopes, List.lookup_cons, hyx]
  | succ k => simp [lookupAt, hscopes]

/-- A name is looked up from the innermost scope outwards. -/
theorem findSome?_scopes {x : String} {w : Variable} :
    env.scopes.findSome? (·.lookup x) = some w ↔
      ∃ k, env.lookupAt k x = some w ∧ ∀ j < k, env.lookupAt j x = none := by
  rw [List.findSome?_eq_some_iff]
  constructor
  · rintro ⟨inner, scope, outer, hscopes, hw, hinner⟩
    refine ⟨inner.length, by simpa [lookupAt, hscopes] using hw, fun j hj => ?_⟩
    simpa [lookupAt, hscopes, List.getElem?_append_left hj, List.getElem?_eq_getElem hj] using
      hinner _ (List.getElem_mem hj)
  · rintro ⟨k, hw, hinner⟩
    obtain ⟨scope, hscope, hw⟩ := Option.bind_eq_some_iff.mp hw
    obtain ⟨hk, rfl⟩ := List.getElem?_eq_some_iff.mp hscope
    refine ⟨env.scopes.take k, _, env.scopes.drop (k + 1), ?_, hw, fun scope hmem => ?_⟩
    · rw [← List.drop_eq_getElem_cons hk, List.take_append_drop]
    · obtain ⟨j, hj, rfl⟩ := List.mem_take_iff_getElem.mp hmem
      have hnone := hinner j (by omega)
      rwa [lookupAt, List.getElem?_eq_getElem] at hnone

/-! ## The environment keeps to its history -/

/-- No declaration was made in a scope that had one of the same name. -/
def Fresh (h : List Event) : Prop :=
  ∀ before e later x w, h = before ++ e :: later → e.Declares x w →
    ∀ w', ¬ OpenAt (Event.Declares x w') before 0

/-- A declaration into a scope without the name keeps the history fresh. -/
theorem Fresh.concat (hh : Fresh h)
    (he : ∀ x w w', e.Declares x w → ¬ OpenAt (Event.Declares x w') h 0) : Fresh (h ++ [e]) := by
  intro before d later x w heq hd w'
  rcases List.eq_nil_or_concat' later with rfl | ⟨later, last, rfl⟩
  · obtain ⟨rfl, hlast⟩ := List.append_inj' heq rfl
    cases hlast
    exact he x w w' hd
  · rw [← List.cons_append, ← List.append_assoc] at heq
    exact hh before d later x w (List.append_inj' heq rfl).1 hd w'

/-- The environment holds what its history tells. -/
structure Recalls (h : List Event) (env : Environment) : Prop where
  functions : ∀ f, env.functions.lookup f = firstSignature? f h
  numbers : numbers h = (List.range env.nextVar).map VarId.mk
  depth : ∀ k, k < env.scopes.length ↔ OpenAt Event.Opens h k
  entries : ∀ k x w, env.lookupAt k x = some w ↔ OpenAt (Event.Declares x w) h k
  fresh : Fresh h

/-- In the beginning there is nothing to recall. -/
theorem recalls_empty : Recalls [] empty where
  functions := fun _ => rfl
  numbers := rfl
  depth := by simp [empty, OpenAt]
  entries := by simp [empty, OpenAt, lookupAt]
  fresh := by simp [Fresh]

/-- A call that declares nothing is recalled if it moves the scopes as the history has it. -/
theorem Recalls.concat {env' : Environment} (hr : Recalls h env) (hdeclared : e.declared? = none)
    (hfunctions : ∀ f,
      env'.functions.lookup f = (env.functions.lookup f).or (firstSignature? f [e]))
    (hnext : env'.nextVar = if e.IsEntry then 0 else env.nextVar)
    (hdepth : ∀ k, k < env'.scopes.length ↔
      (e.Opens ∧ k = 0) ∨ ∃ j < env.scopes.length, e.call.shift j = some k)
    (hentries : ∀ k x w, env'.lookupAt k x = some w ↔
      ∃ j, env.lookupAt j x = some w ∧ e.call.shift j = some k) :
    Recalls (h ++ [e]) env' := by
  have hnot := Event.not_declares hdeclared
  refine ⟨?_, ?_, ?_, ?_, hr.fresh.concat fun x w _ he => absurd he (hnot x w)⟩
  · intro f
    rw [firstSignature?_concat, ← hr.functions, hfunctions]
  · rw [hnext]
    split
    · next hentry => exact numbers_concat_entry hentry
    · next hentry =>
      rw [numbers_concat hentry, hdeclared, hr.numbers, Option.toList_none, List.append_nil]
  · intro k
    simp only [hdepth, openAt_concat, hr.depth]
  · intro k x w
    simp only [hentries, openAt_concat_of_not (hnot x w), hr.entries]

/-- A call that opens, closes and declares nothing is recalled if it adds its function. -/
theorem Recalls.concat_of_shift {functions : List (String × Signature)} (hr : Recalls h env)
    (hdeclared : e.declared? = none) (hshift : ∀ j, e.call.shift j = some j)
    (hfunctions : ∀ f, functions.lookup f = (env.functions.lookup f).or (firstSignature? f [e])) :
    Recalls (h ++ [e]) { env with functions } := by
  have hentry : ¬ e.IsEntry := by
    intro hentry
    simpa [show e.call = .enterFunction from hentry, Call.shift] using hshift 0
  have hopens : ¬ e.Opens := by
    rintro (hcall | hcall) <;> simpa [hcall, Call.shift] using hshift 0
  refine hr.concat hdeclared hfunctions (if_neg hentry).symm ?_ ?_
  · intro k
    simp [hopens, hshift]
  · intro k x w
    simp [hshift, lookupAt]

/-- A function is entered if its name is new and refused otherwise; the history tells the first one
either way. -/
theorem Recalls.addFunction (hr : Recalls h env) (f : String) (s : Signature) :
    Recalls (h ++ [⟨.addFunction f s, (env.perform (.addFunction f s)).1⟩])
      (env.perform (.addFunction f s)).2 := by
  have hfirst : ∀ (answer : Except NameProblem Reply) g,
      firstSignature? g [⟨.addFunction f s, answer⟩] = if f = g then some s else none := by
    intro answer g
    simp [firstSignature?]
  simp only [Environment.perform, Environment.addFunction]
  cases hf : env.functions.lookup f with
  | some s' =>
    refine hr.concat_of_shift rfl (fun _ => rfl) fun g => ?_
    rw [hfirst]
    by_cases hfg : f = g
    · rw [← hfg, hf, Option.some_or]
    · rw [if_neg hfg, Option.or_none]
  | none =>
    refine hr.concat_of_shift rfl (fun _ => rfl) fun g => ?_
    rw [hfirst, List.lookup_cons]
    by_cases hfg : f = g
    · simp [← hfg, hf]
    · rw [if_neg hfg, Option.or_none, beq_eq_false_iff_ne.mpr (Ne.symm hfg)]

/-- A declaration is recalled. -/
theorem Recalls.declare {ty : Ty} {x : String} {v : VarId} {env' : Environment}
    (hr : Recalls h env) (hd : env.declare ty x = (.ok v, env')) :
    Recalls (h ++ [⟨.declare ty x, .ok (.declared v)⟩]) env' := by
  obtain ⟨hnone, hnew, hold⟩ := lookupAt_declare hd
  have hfree : ∀ w, ¬ OpenAt (Event.Declares x w) h 0 := by
    intro w hw
    rw [← hr.entries, hnone] at hw
    cases hw
  obtain ⟨e, he⟩ : ∃ e : Event, e = ⟨.declare ty x, .ok (.declared v)⟩ := ⟨_, rfl⟩
  have hdeclares : e.Declares x ⟨v, ty⟩ := he
  have hshift : ∀ j, e.call.shift j = some j := he ▸ fun _ => rfl
  obtain ⟨-, scope, outer, hscopes, -, rfl, rfl⟩ := declare_eq_ok.mp hd
  rw [← he]
  refine ⟨?_, ?_, ?_, ?_, hr.fresh.concat ?_⟩
  · intro f
    rw [firstSignature?_concat, ← hr.functions, he]
    exact Option.or_none.symm
  · rw [numbers_concat (by simp [Event.IsEntry, he]), hr.numbers, List.range_succ, List.map_append,
      he]
    rfl
  · intro k
    rw [openAt_concat_of_shift (by simp [Event.Opens, he]) hshift, ← hr.depth, hscopes]
    rfl
  · intro k y w
    by_cases hky : k = 0 ∧ y = x
    · obtain ⟨rfl, rfl⟩ := hky
      rw [hnew, openAt_concat]
      constructor
      · rintro hw
        cases hw
        exact .inl ⟨hdeclares, rfl⟩
      · rintro (⟨hw, -⟩ | ⟨j, hj, hj0⟩)
        · exact congrArg some (hdeclares.inj hw).2
        · cases (hshift j).symm.trans hj0
          exact absurd hj (hfree w)
    · rw [hold k y hky, hr.entries, openAt_concat]
      simp only [hshift, Option.some.injEq, exists_eq_right]
      refine ⟨.inr, fun hopen => hopen.resolve_left ?_⟩
      rintro ⟨hw, rfl⟩
      exact hky ⟨rfl, (hw.inj hdeclares).1⟩
  · intro y w w' hw
    rw [(hw.inj hdeclares).1]
    exact hfree w'

/-- Whatever the call, what happens is recalled. -/
theorem Recalls.perform (hr : Recalls h env) (c : Call) :
    Recalls (h ++ [⟨c, (env.perform c).1⟩]) (env.perform c).2 := by
  cases c with
  | addFunction f s => exact hr.addFunction f s
  | lookupFunction f =>
    refine hr.concat_of_shift ?_ (fun _ => rfl) fun _ => Option.or_none.symm
    rw [Environment.perform]
    cases env.lookupFunction f <;> rfl
  | enterFunction =>
    refine hr.concat rfl ?_ rfl ?_ ?_
    · intro f
      exact Option.or_none.symm
    · intro k
      simp [Environment.perform, Environment.enterFunction, Event.Opens, Call.shift]
    · intro k x w
      simp [Environment.perform, lookupAt_enterFunction, Call.shift]
  | pushScope =>
    refine hr.concat rfl ?_ rfl ?_ ?_
    · intro f
      exact Option.or_none.symm
    · intro k
      cases k <;> simp [Environment.perform, Environment.pushScope, Event.Opens, Call.shift]
    · intro k x w
      cases k <;> simp [Environment.perform, lookupAt_pushScope, Call.shift]
      simp [lookupAt, Environment.pushScope]
  | popScope =>
    refine hr.concat rfl ?_ rfl ?_ ?_
    · intro f
      exact Option.or_none.symm
    · intro k
      simp [Environment.perform, Environment.popScope, Event.Opens, Call.shift_eq_some]
      omega
    · intro k x w
      simp [Environment.perform, lookupAt_popScope, Call.shift_eq_some]
  | declare ty x =>
    rw [Environment.perform]
    rcases hd : env.declare ty x with ⟨e | v, env'⟩
    · obtain rfl : env' = env := declare_error hd
      exact hr.concat_of_shift rfl (fun _ => rfl) fun _ => Option.or_none.symm
    · exact hr.declare hd
  | resolve x =>
    refine hr.concat_of_shift ?_ (fun _ => rfl) fun _ => Option.or_none.symm
    rw [Environment.perform]
    cases env.resolve x <;> rfl

/-! ## The latest open declaration is the innermost one -/

/-- Two events of a history are the same one, or one comes before the other. -/
theorem split_trichotomy {before before' later later' : List Event} {d d' : Event}
    (heq : before ++ d :: later = before' ++ d' :: later') :
    (d = d' ∧ later = later') ∨ (∃ middle, later = middle ++ d' :: later') ∨
      ∃ middle, later' = middle ++ d :: later := by
  rcases List.append_eq_append_iff.mp heq with ⟨between, -, h⟩ | ⟨between, -, h⟩
  · cases between with
    | nil => exact .inl ⟨(List.cons.inj h).1, (List.cons.inj h).2⟩
    | cons _ middle => exact .inr (.inl ⟨middle, (List.cons.inj h).2⟩)
  · cases between with
    | nil => exact .inl ⟨(List.cons.inj h).1.symm, (List.cons.inj h).2.symm⟩
    | cons _ middle => exact .inr (.inr ⟨middle, (List.cons.inj h).2⟩)

/-- In a fresh history, the latest open declaration of a name is the innermost one. -/
theorem Fresh.latest_iff (hfresh : Fresh h) {x : String} {w : Variable} :
    Latest h x w ↔ ∃ k, OpenAt (Event.Declares x w) h k ∧
      ∀ j < k, ∀ w', ¬ OpenAt (Event.Declares x w') h j := by
  constructor
  · rintro ⟨before, e, later, rfl, he, hopen, hlast⟩
    obtain ⟨k, hk⟩ := hopen.encloses
    refine ⟨k, ⟨before, e, later, rfl, he, hk⟩, ?_⟩
    rintro j hj w' ⟨before', e', later', heq, he', hj'⟩
    rcases split_trichotomy heq with ⟨rfl, rfl⟩ | ⟨middle, rfl⟩ | ⟨middle, rfl⟩
    · exact absurd (hj'.unique hk) (Nat.ne_of_lt hj)
    · exact hlast middle e' later' w' rfl he' hj'.1
    · rw [List.append_cons] at hj'
      obtain ⟨i, -, hi⟩ := hj'.split hk
      omega
  · rintro ⟨k, ⟨before, e, later, rfl, he, hk⟩, hmin⟩
    refine ⟨before, e, later, rfl, he, hk.1, ?_⟩
    rintro middle e' later' w' rfl he' hopen'
    obtain ⟨j, hj⟩ := hopen'.encloses
    rw [List.append_cons] at hk
    obtain ⟨i, hi, rfl⟩ := hk.split hj
    -- a later open declaration is further inside, or else it was made in the same scope
    cases i with
    | succ i =>
      refine hmin j (by omega) w' ⟨before ++ e :: middle, e', later', by simp, he', hj⟩
    | zero =>
      obtain ⟨i, hi, hshift⟩ := encloses_concat.mp hi
      have hcall : e'.call.shift i = some i := by
        rw [show e' = _ from he']
        rfl
      cases hcall.symm.trans hshift
      exact hfresh (before ++ e :: middle) e' later' x w' (by simp) he' w
        ⟨before, e, middle, rfl, he, hi⟩

/-- Resolving a name answers its latest open declaration. -/
theorem Recalls.resolve_iff (hr : Recalls h env) {x : String} {w : Variable} :
    env.resolve x = .ok w ↔ Latest h x w := by
  rw [resolve_eq_ok, findSome?_scopes, hr.fresh.latest_iff]
  simp only [hr.entries, Option.eq_none_iff_forall_ne_some, ne_eq]

/-- A declaration goes well if there is a scope for it, without a declaration of the same name. -/
theorem Recalls.declare_iff (hr : Recalls h env) {ty : Ty} {x : String} :
    (∃ v env', env.declare ty x = (.ok v, env')) ↔
      ty ≠ .void ∧ (∃ k, OpenAt Event.Opens h k) ∧ ∀ w, ¬ OpenAt (Event.Declares x w) h 0 := by
  simp only [declare_eq_ok, ← hr.depth, ← hr.entries]
  constructor
  · rintro ⟨v, env', hty, scope, outer, hscopes, hnone, -⟩
    refine ⟨hty, ⟨0, by simp [hscopes]⟩, fun w => ?_⟩
    simp [lookupAt, hscopes, hnone]
  · rintro ⟨hty, ⟨k, hk⟩, hnone⟩
    cases hscopes : env.scopes with
    | nil => simp [hscopes] at hk
    | cons scope outer =>
      refine ⟨_, _, hty, scope, outer, rfl, ?_, rfl, rfl⟩
      simpa [lookupAt, hscopes, ← Option.eq_none_iff_forall_ne_some] using hnone

/-! ## Whole runs -/

/-- What has happened when the calls were made to an empty environment. -/
def history (calls : List Call) : List Event := Runs.events perform empty calls

/-- The environment that the calls leave. -/
def reached (calls : List Call) : Environment := Runs.after perform empty calls

/-- The answer to a call that is made behind others. -/
def answer (calls : List Call) (c : Call) : Except NameProblem Reply :=
  ((reached calls).perform c).1

/-- Whatever calls were made, the environment holds what their history tells. -/
theorem recalls_history (calls : List Call) : Recalls (history calls) (reached calls) :=
  Runs.kept_after (fun c hr => hr.perform c) calls recalls_empty

/-- A call that fails changes nothing. -/
theorem perform_error {c : Call} {e : NameProblem} (he : (env.perform c).1 = .error e) :
    (env.perform c).2 = env := by
  cases c with
  | addFunction f s =>
    exact addFunction_error (Prod.ext (map_eq_error.mp he) rfl)
  | declare ty x =>
    exact declare_error (Prod.ext (map_eq_error.mp he) rfl)
  | enterFunction | pushScope | popScope => cases he
  | lookupFunction f | resolve x => rfl

theorem answer_resolve_iff {calls : List Call} {x : String} {w : Variable} :
    answer calls (.resolve x) = .ok (.found w) ↔ Latest (history calls) x w := by
  rw [← (recalls_history calls).resolve_iff, answer, perform, map_eq_ok]
  simp

/-- A name without an open declaration is undefined. -/
theorem answer_resolve_of_not_latest {calls : List Call} {x : String}
    (hx : ∀ w, ¬ Latest (history calls) x w) :
    answer calls (.resolve x) = .error (.undefinedVariable x) := by
  simp only [← (recalls_history calls).resolve_iff, resolve_eq_ok] at hx
  rw [answer, perform, resolve, Option.eq_none_iff_forall_ne_some.mpr hx]
  rfl

theorem answer_lookupFunction (calls : List Call) (f : String) :
    answer calls (.lookupFunction f) =
      (firstSignature? f (history calls)).elim (.error (.undefinedFunction f))
        fun s => .ok (.signature s) := by
  rw [← (recalls_history calls).functions, answer, perform, lookupFunction]
  cases (reached calls).functions.lookup f <;> rfl

theorem answer_declare_iff {calls : List Call} {ty : Ty} {x : String} :
    (∃ v, answer calls (.declare ty x) = .ok (.declared v)) ↔
      ty ≠ .void ∧ (∃ k, OpenAt Event.Opens (history calls) k) ∧
        ∀ w, ¬ OpenAt (Event.Declares x w) (history calls) 0 := by
  rw [← (recalls_history calls).declare_iff]
  simp only [answer, perform]
  rcases (reached calls).declare ty x with ⟨e | v, env'⟩
  · simp [Except.map]
  · exact ⟨fun _ => ⟨v, env', rfl⟩, fun _ => ⟨v, rfl⟩⟩

/-- A call that failed might as well not have been made. -/
theorem answer_skip_error {calls later : List Call} {c next : Call} {e : NameProblem}
    (he : answer calls c = .error e) :
    answer (calls ++ c :: later) next = answer (calls ++ later) next := by
  have hskip : reached (calls ++ c :: later) = reached (calls ++ later) := by
    simp only [reached, Runs.after_append]
    exact congrArg (Runs.after perform · later) (perform_error he)
  rw [answer, hskip, answer]

/-- Behind any calls, an environment answers as their history has it. A name stands for what its
latest declaration gave among those whose scope is still open, and for nothing if there is none. The
declarations since the last entry into a function are numbered from zero, without a gap. A function
has the signature that it was first added with. A declaration goes well if its type is not `void`
and the innermost scope exists and has no declaration of that name. A call that fails makes no
difference to any later answer. -/
theorem answers_follow_history (calls : List Call) :
    (∀ x w, answer calls (.resolve x) = .ok (.found w) ↔ Latest (history calls) x w) ∧
    (∀ x, (∀ w, ¬ Latest (history calls) x w) →
      answer calls (.resolve x) = .error (.undefinedVariable x)) ∧
    (∃ n, numbers (history calls) = (List.range n).map VarId.mk) ∧
    (∀ f, answer calls (.lookupFunction f) =
      (firstSignature? f (history calls)).elim (.error (.undefinedFunction f))
        fun s => .ok (.signature s)) ∧
    (∀ ty x, (∃ v, answer calls (.declare ty x) = .ok (.declared v)) ↔
      ty ≠ .void ∧ (∃ k, OpenAt Event.Opens (history calls) k) ∧
        ∀ w, ¬ OpenAt (Event.Declares x w) (history calls) 0) ∧
    ∀ c e, answer calls c = .error e →
      ∀ later next, answer (calls ++ c :: later) next = answer (calls ++ later) next :=
  ⟨fun _ _ => answer_resolve_iff, fun _ => answer_resolve_of_not_latest,
    ⟨_, (recalls_history calls).numbers⟩, answer_lookupFunction calls,
    fun _ _ => answer_declare_iff, fun _ _ he _ _ => answer_skip_error he⟩

-- a scope that was closed keeps its numbers, and gives the outer meaning free
example :
    answer [.enterFunction, .declare .int "x", .pushScope, .declare .double "x", .popScope]
        (.resolve "x") = .ok (.found ⟨⟨0⟩, .int⟩) ∧
      answer [.enterFunction, .declare .int "x", .pushScope, .declare .double "x", .popScope]
        (.declare .bool "y") = .ok (.declared ⟨2⟩) := ⟨rfl, rfl⟩

end MiniC.Environment
