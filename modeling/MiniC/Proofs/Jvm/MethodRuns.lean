import Mathlib.Data.List.Nodup
import Mathlib.Order.Bounds.Basic
import Mathlib.Order.Interval.Finset.Nat
import MiniC.Jvm.Method
import MiniC.Proofs.Except
import MiniC.Proofs.Jvm.Disassembly
import MiniC.Proofs.Runs

/-!
# A method keeps its accounts

A method is built by calls, and what it tells about itself is settled by them: the greatest depth is
the greatest one that any first part of the instructions reaches, the words of locals are those of
all reservations, and a variable is where it was last put. A call fails just where its predecessors
leave no room for it, and nothing else does.
-/

namespace MiniC.Jvm.Method

/-! ## Calls and answers -/

/-- One use of a method under construction. -/
inductive Call where
  | emit (i : Instruction)
  | newLabel
  | label (l : Label)
  | reserve (v : VarId) (ty : Ty)
deriving DecidableEq

/-- What a call gives back. -/
inductive Answer where
  | done
  | label (l : Label)
  | slot (n : Nat)
deriving DecidableEq

/-- Answers a call. -/
def serve (m : Method) : Call → Except Fault (Answer × Method)
  | .emit i => (m.emitCounted i).map (Answer.done, ·)
  | .newLabel => m.newLabel.map fun r => (.label r.1, r.2)
  | .label l => (m.emitCounted (.label l)).map (Answer.done, ·)
  | .reserve v ty => (m.reserve v ty).map fun r => (.slot r.1, r.2)

/-- A call that was answered. -/
abbrev Event := Runs.Event Call Answer

/-- Makes the calls in order, up to the first that ends in a fault: what was answered, and how it
ends. -/
def serveAll (m : Method) (cs : List Call) : List Event × Except Fault Method :=
  Runs.upToFailure serve m cs

/-! ## What the calls tell -/

namespace Call

/-- The instruction that a call appends. -/
def instruction? : Call → Option Instruction
  | .emit i => some i
  | .label l => some (.label l)
  | .newLabel | .reserve _ _ => none

/-- The variable that a call reserves words for, and its type. -/
def reserved? : Call → Option (VarId × Ty)
  | .reserve v ty => some (v, ty)
  | .emit _ | .newLabel | .label _ => none

end Call

def emitted (cs : List Call) : List Instruction := cs.filterMap Call.instruction?

/-- The depth behind some instructions, if nothing were checked. -/
def depthBehind (is : List Instruction) : Int := (is.map Instruction.effect).sum

/-- The depths behind the first parts of some instructions. -/
def depths (is : List Instruction) : Set Int := {d | ∃ front, front <+: is ∧ d = depthBehind front}

/-- The words of all variables that some calls reserve words for. -/
def wordsReserved (cs : List Call) : Nat := ((cs.filterMap Call.reserved?).map (·.2.words)).sum

/-- The words that a variable was given. -/
structure Reservation where
  var : VarId
  ty : Ty
  slot : Nat

/-- The slots of a reservation. -/
def Reservation.words (r : Reservation) : Finset Nat := Finset.Ico r.slot (r.slot + r.ty.words)

namespace Event

def reservation? : Event → Option Reservation
  | ⟨.reserve v ty, .slot n⟩ => some ⟨v, ty, n⟩
  | _ => none

def label? : Event → Option Label
  | ⟨.newLabel, .label l⟩ => some l
  | _ => none

end Event

def reservations (es : List Event) : List Reservation := es.filterMap Event.reservation?

/-- The labels that were given. -/
def labelsGiven (es : List Event) : List Label := es.filterMap Event.label?

/-- The calls `before` leave no room for the next one, so that it ends in a fault. -/
inductive Breaks (spec : String) (before : List Call) : Call → Fault → Prop where
  | below {c : Call} {i : Instruction} (hc : c.instruction? = some i)
      (h : depthBehind (emitted before ++ [i]) < 0) :
      Breaks spec before c (.negativeDepth i.text spec)
  | above {c : Call} {i : Instruction} (hc : c.instruction? = some i)
      (h : 2 ^ 31 - 1 < depthBehind (emitted before ++ [i])) :
      Breaks spec before c .tooDeep
  | locals {v : VarId} {ty : Ty} (h : 65535 < wordsReserved before + ty.words) :
      Breaks spec before (.reserve v ty) .tooManyLocals
  | labels (h : 2 ^ 32 - 1 < before.count .newLabel + 1) :
      Breaks spec before .newLabel .tooManyLabels

/-! ## Depths -/

variable {m m' : Method} {spec : String} {cs : List Call} {es : List Event} {c : Call}
  {f : Fault}

section Depths

variable {i : Instruction} {is : List Instruction}

/-- The depth behind one more instruction changes by its effect. -/
theorem depthBehind_concat : depthBehind (is ++ [i]) = depthBehind is + i.effect := by
  simp [depthBehind]

theorem depths_concat : depths (is ++ [i]) = insert (depthBehind (is ++ [i])) (depths is) := by
  ext d
  simp [depths, List.prefix_concat_iff, or_and_right, exists_or]

/-- The method has counted the depths along its instructions. -/
structure CountsDepths (m : Method) (is : List Instruction) : Prop where
  depth : m.depth = depthBehind is
  greatest : IsGreatest (depths is) m.maxDepth

theorem CountsDepths.congr (h : m.CountsDepths is) (hdepth : m'.depth = m.depth)
    (hmax : m'.maxDepth = m.maxDepth) : m'.CountsDepths is :=
  ⟨hdepth ▸ h.depth, hmax ▸ h.greatest⟩

/-- An instruction is appended if the depth behind it is neither negative nor too great. -/
theorem emitCounted_eq (m : Method) (i : Instruction) :
    m.emitCounted i =
      if m.depth + i.effect < 0 then .error (.negativeDepth i.text m.spec)
      else if 2 ^ 31 - 1 < m.depth + i.effect then .error .tooDeep
      else .ok { m with
        body := m.body.push i
        depth := (m.depth + i.effect).toNat
        maxDepth := max m.maxDepth (m.depth + i.effect).toNat } := by
  have hmax : maxCountedDepth = 2 ^ 31 - 1 := rfl
  unfold emitCounted emit
  dsimp only
  by_cases hbelow : m.depth + i.effect < 0
  · rw [if_pos hbelow, if_pos hbelow]
  · rw [if_neg hbelow, if_neg hbelow]
    dsimp only
    by_cases habove : 2 ^ 31 - 1 < m.depth + i.effect
    · rw [if_pos habove, if_neg (by omega)]
    · rw [if_neg habove, if_pos (by omega)]

/-- An instruction is refused exactly when it takes more than there is, or leaves more than can be
counted. -/
theorem CountsDepths.emitCounted_error_iff (h : m.CountsDepths is) :
    m.emitCounted i = .error f ↔
      (depthBehind (is ++ [i]) < 0 ∧ f = .negativeDepth i.text m.spec) ∨
        (2 ^ 31 - 1 < depthBehind (is ++ [i]) ∧ f = .tooDeep) := by
  rw [emitCounted_eq, depthBehind_concat, ← h.depth]
  split
  · next hbelow =>
    rw [Except.error.injEq, eq_comm]
    refine ⟨fun hf => .inl ⟨hbelow, hf⟩, ?_⟩
    rintro (⟨-, hf⟩ | ⟨habove, -⟩)
    · exact hf
    · omega
  · next hbelow =>
    split
    · next habove =>
      rw [Except.error.injEq, eq_comm]
      exact ⟨fun hf => .inr ⟨habove, hf⟩, fun hf => (hf.resolve_left fun hlt => hbelow hlt.1).2⟩
    · next habove =>
      refine ⟨nofun, ?_⟩
      rintro (⟨hlt, -⟩ | ⟨hlt, -⟩)
      · exact absurd hlt hbelow
      · exact absurd hlt habove

/-- An emitted instruction changes the body and the depths only, and the depths stay counted. -/
theorem CountsDepths.emitCounted (h : m.CountsDepths is) (hm : m.emitCounted i = .ok m') :
    m'.CountsDepths (is ++ [i]) ∧ m' = { m with
      body := m.body.push i
      depth := m'.depth
      maxDepth := m'.maxDepth } := by
  rw [emitCounted_eq] at hm
  split at hm
  · cases hm
  split at hm
  · cases hm
  next hbelow _ =>
  cases hm
  have hdepth : ((m.depth + i.effect).toNat : Int) = depthBehind (is ++ [i]) := by
    rw [depthBehind_concat, ← h.depth]
    omega
  refine ⟨⟨hdepth, ?_⟩, rfl⟩
  have hmax : ((max m.maxDepth (m.depth + i.effect).toNat : Nat) : Int) =
      max (depthBehind (is ++ [i])) m.maxDepth := by
    omega
  rw [depths_concat, hmax]
  exact h.greatest.insert _

end Depths

/-! ## Locals -/

section Locals

variable {vars : List (VarId × Ty)} {rs : List Reservation} {v : VarId} {ty : Ty} {n : Nat}

/-- The method has put the variables where the reservations say. -/
structure KeepsSlots (m : Method) (vars : List (VarId × Ty)) (rs : List Reservation) : Prop where
  locals : m.locals = (vars.map (·.2.words)).sum
  vars : rs.map (fun r => (r.var, r.ty)) = vars
  apart : rs.Pairwise fun r s => r.slot + r.ty.words ≤ s.slot
  within : ∀ r ∈ rs, r.slot + r.ty.words ≤ m.locals
  latest : ∀ v, m.slot? v = (rs.reverse.find? (·.var = v)).map Reservation.slot

theorem KeepsSlots.congr (h : m.KeepsSlots vars rs) (hlocals : m'.locals = m.locals)
    (hslots : m'.slots = m.slots) : m'.KeepsSlots vars rs where
  locals := hlocals ▸ h.locals
  vars := h.vars
  apart := h.apart
  within := hlocals ▸ h.within
  latest := by
    intro v
    rw [slot?, hslots]
    exact h.latest v

/-- A variable is refused exactly when its words do not fit behind those reserved. -/
theorem KeepsSlots.reserve_error_iff (h : m.KeepsSlots vars rs) :
    m.reserve v ty = .error f ↔
      65535 < (vars.map (·.2.words)).sum + ty.words ∧ f = .tooManyLocals := by
  rw [Method.reserve, ← h.locals]
  split
  · next hroom =>
    refine ⟨nofun, fun hf => absurd hroom (Nat.not_le.mpr hf.1)⟩
  · next hroom =>
    rw [Except.error.injEq, eq_comm]
    exact ⟨fun hf => ⟨Nat.not_le.mp hroom, hf⟩, fun hf => hf.2⟩

/-- The words of a reservation follow those of all earlier ones. -/
theorem KeepsSlots.reserve (h : m.KeepsSlots vars rs) (hm : m.reserve v ty = .ok (n, m')) :
    m'.KeepsSlots (vars ++ [(v, ty)]) (rs ++ [⟨v, ty, n⟩]) ∧ m' = { m with
      locals := m'.locals
      slots := m'.slots } := by
  unfold Method.reserve at hm
  split at hm
  · cases hm
    refine ⟨⟨?_, ?_, ?_, ?_, ?_⟩, rfl⟩
    · rw [List.map_append, List.sum_append, h.locals]
      rfl
    · rw [List.map_append, h.vars]
      rfl
    · refine List.pairwise_append.mpr ⟨h.apart, List.pairwise_singleton _ _, ?_⟩
      intro r hr s hs
      rw [List.mem_singleton.mp hs]
      exact h.within r hr
    · intro r hr
      rcases List.mem_append.mp hr with hr | hr
      · exact Nat.le_add_right_of_le (h.within r hr)
      · rw [List.mem_singleton.mp hr]
    · intro w
      have hlatest := h.latest w
      rw [slot?, List.lookup_cons, List.reverse_append, List.reverse_singleton,
        List.singleton_append, List.find?_cons]
      by_cases hw : w = v
      · simp [hw]
      · have hwv : (w == v) = false := beq_eq_false_iff_ne.mpr hw
        simp only [hwv, decide_eq_false (Ne.symm hw)]
        exact hlatest
  · cases hm

end Locals

/-! ## Labels -/

section Labels

variable {n : Nat} {ls : List Label}

/-- The method has given just the labels `ls`, and they are the first ones. -/
structure KeepsLabels (m : Method) (n : Nat) (ls : List Label) : Prop where
  next : m.nextLabel = n
  given : ls = (List.range n).map Label.mk

theorem KeepsLabels.congr (h : m.KeepsLabels n ls) (hnext : m'.nextLabel = m.nextLabel) :
    m'.KeepsLabels n ls :=
  ⟨hnext.trans h.next, h.given⟩

/-- A label is refused exactly when the counter cannot go on. -/
theorem KeepsLabels.newLabel_error_iff (h : m.KeepsLabels n ls) :
    m.newLabel = .error f ↔ 2 ^ 32 - 1 < n + 1 ∧ f = .tooManyLabels := by
  rw [newLabel, ← h.next]
  split
  · next hroom =>
    refine ⟨nofun, fun hf => absurd hroom (Nat.not_le.mpr hf.1)⟩
  · next hroom =>
    rw [Except.error.injEq, eq_comm]
    exact ⟨fun hf => ⟨Nat.not_le.mp hroom, hf⟩, fun hf => hf.2⟩

/-- A label that is given out is the next one. -/
theorem KeepsLabels.newLabel {l : Label} (h : m.KeepsLabels n ls)
    (hm : m.newLabel = .ok (l, m')) :
    m'.KeepsLabels (n + 1) (ls ++ [l]) ∧ m' = { m with nextLabel := m'.nextLabel } := by
  unfold Method.newLabel at hm
  split at hm
  · cases hm
    refine ⟨⟨congrArg (· + 1) h.next, ?_⟩, rfl⟩
    rw [h.given, List.range_succ, List.map_append, h.next]
    rfl
  · cases hm

end Labels

/-! ## One call -/

/-- What a method tells is what its calls tell. -/
structure Accounts (spec : String) (cs : List Call) (es : List Event) (m : Method) : Prop where
  calls : es.map Runs.Event.call = cs
  spec : m.spec = spec
  depths : m.CountsDepths (emitted cs)
  slots : m.KeepsSlots (cs.filterMap Call.reserved?) (reservations es)
  labels : m.KeepsLabels (cs.count .newLabel) (labelsGiven es)

/-- A new method has nothing to account for. -/
theorem accounts_empty (spec : String) : Accounts spec [] [] (empty spec) where
  calls := rfl
  spec := rfl
  depths := ⟨rfl, by simp [emitted, depths, depthBehind, empty]⟩
  slots := ⟨rfl, rfl, .nil, List.forall_mem_nil _, fun _ => rfl⟩
  labels := ⟨rfl, rfl⟩

theorem filterMap_concat {α β : Type} (f : α → Option β) (l : List α) (a : α) :
    (l ++ [a]).filterMap f = l.filterMap f ++ (f a).toList := by
  cases ha : f a <;> simp [ha]

/-- The accounts behind one more call, part by part. -/
theorem Accounts.concat {a : Answer} (h : Accounts spec cs es m) (hspec : m'.spec = m.spec)
    (hdepths : m'.CountsDepths (emitted cs ++ c.instruction?.toList))
    (hslots : m'.KeepsSlots (cs.filterMap Call.reserved? ++ c.reserved?.toList)
      (reservations es ++ (Event.reservation? ⟨c, a⟩).toList))
    (hlabels : m'.KeepsLabels (cs.count .newLabel + [c].count .newLabel)
      (labelsGiven es ++ (Event.label? ⟨c, a⟩).toList)) :
    Accounts spec (cs ++ [c]) (es ++ [⟨c, a⟩]) m' where
  calls := by rw [List.map_append, h.calls, List.map_singleton]
  spec := hspec.trans h.spec
  depths := by rwa [emitted, filterMap_concat]
  slots := by rwa [reservations, filterMap_concat, filterMap_concat]
  labels := by rwa [labelsGiven, filterMap_concat, List.count_append]

/-- A call that is answered is accounted for. What it does not touch is told as before. -/
theorem Accounts.serve {a : Answer} (h : Accounts spec cs es m) (hm : m.serve c = .ok (a, m')) :
    Accounts spec (cs ++ [c]) (es ++ [⟨c, a⟩]) m' := by
  cases c with
  | emit i | label l =>
    obtain ⟨m₁, hemit, heq⟩ := map_eq_ok.mp hm
    cases heq
    obtain ⟨hdepths, hframe⟩ := h.depths.emitCounted hemit
    have hslots : m'.KeepsSlots _ _ := h.slots.congr (by rw [hframe]) (by rw [hframe])
    have hlabels : m'.KeepsLabels _ _ := h.labels.congr (by rw [hframe])
    refine h.concat (by rw [hframe]) hdepths ?_ ?_
    · simpa [Call.reserved?, Event.reservation?] using hslots
    · simpa [Event.label?] using hlabels
  | newLabel =>
    obtain ⟨r, hlabel, heq⟩ := map_eq_ok.mp hm
    cases heq
    obtain ⟨hlabels, hframe⟩ := h.labels.newLabel hlabel
    have hdepths : r.2.CountsDepths _ := h.depths.congr (by rw [hframe]) (by rw [hframe])
    have hslots : r.2.KeepsSlots _ _ := h.slots.congr (by rw [hframe]) (by rw [hframe])
    refine h.concat (by rw [hframe]) ?_ ?_ hlabels
    · simpa [Call.instruction?] using hdepths
    · simpa [Call.reserved?, Event.reservation?] using hslots
  | reserve v ty =>
    obtain ⟨r, hreserve, heq⟩ := map_eq_ok.mp hm
    cases heq
    obtain ⟨hslots, hframe⟩ := h.slots.reserve hreserve
    have hdepths : r.2.CountsDepths _ := h.depths.congr (by rw [hframe]) (by rw [hframe])
    have hlabels : r.2.KeepsLabels _ _ := h.labels.congr (by rw [hframe])
    refine h.concat (by rw [hframe]) ?_ hslots ?_
    · simpa [Call.instruction?] using hdepths
    · simpa [Event.label?] using hlabels

/-- A call ends in a fault just if its predecessors leave no room for it. -/
theorem Accounts.serve_error_iff (h : Accounts spec cs es m) :
    m.serve c = .error f ↔ Breaks spec cs c f := by
  cases c with
  | emit i | label l =>
    rw [Method.serve, map_eq_error, h.depths.emitCounted_error_iff, h.spec]
    constructor
    · rintro (⟨hbelow, rfl⟩ | ⟨habove, rfl⟩)
      · exact .below rfl hbelow
      · exact .above rfl habove
    · rintro (⟨hc, hbelow⟩ | ⟨hc, habove⟩ | _ | _)
      · cases hc
        exact .inl ⟨hbelow, rfl⟩
      · cases hc
        exact .inr ⟨habove, rfl⟩
  | newLabel =>
    rw [Method.serve, map_eq_error, h.labels.newLabel_error_iff]
    constructor
    · rintro ⟨hlabels, rfl⟩
      exact .labels hlabels
    · rintro (⟨⟨⟩, _⟩ | ⟨⟨⟩, _⟩ | _ | hlabels)
      exact ⟨hlabels, rfl⟩
  | reserve v ty =>
    rw [Method.serve, map_eq_error, h.slots.reserve_error_iff]
    constructor
    · rintro ⟨hlocals, rfl⟩
      exact .locals hlocals
    · rintro (⟨⟨⟩, _⟩ | ⟨⟨⟩, _⟩ | hlocals | _)
      exact ⟨hlocals, rfl⟩

/-! ## Whole runs -/

/-- There is room for every call. -/
def Fits (spec : String) (cs : List Call) : Prop :=
  ∀ k c, cs[k]? = some c → ∀ f, ¬ Breaks spec (cs.take k) c f

theorem fits_nil (spec : String) : Fits spec [] := by
  intro k c hc
  cases hc

/-- Calls that fit still fit with one more that breaks no limit. -/
theorem Fits.concat (h : Fits spec cs) (hc : ∀ f, ¬ Breaks spec cs c f) :
    Fits spec (cs ++ [c]) := by
  intro k d hd f
  rcases Nat.lt_trichotomy k cs.length with hk | rfl | hk
  · rw [List.getElem?_append_left hk] at hd
    rw [List.take_append_of_le_length (Nat.le_of_lt hk)]
    exact h k d hd f
  · rw [List.getElem?_concat_length] at hd
    cases hd
    rw [List.take_left]
    exact hc f
  · rw [List.getElem?_eq_none (by simpa using Nat.succ_le_of_lt hk)] at hd
    cases hd

/-- If the first calls fit, none of them breaks. -/
theorem Fits.not_breaks {k n : Nat} (h : Fits spec (cs.take n)) (hk : k < n)
    (hc : cs[k]? = some c) : ¬ Breaks spec (cs.take k) c f := by
  have hfits := h k c (by rw [List.getElem?_take_of_lt hk, hc]) f
  rwa [List.take_take, Nat.min_eq_left (Nat.le_of_lt hk)] at hfits

/-- A call breaks one limit at most. -/
theorem Breaks.unique {g : Fault} (hf : Breaks spec cs c f) (hg : Breaks spec cs c g) : f = g := by
  cases hf with
  | below hc hbelow =>
    cases hg with
    | below hc' => rw [Option.some.inj (hc.symm.trans hc')]
    | above hc' habove =>
      cases hc.symm.trans hc'
      omega
    | locals | labels => cases hc
  | above hc habove =>
    cases hg with
    | below hc' hbelow =>
      cases hc.symm.trans hc'
      omega
    | above => rfl
    | locals | labels => cases hc
  | locals => cases hg with
    | locals => rfl
    | below hc | above hc => cases hc
  | labels => cases hg with
    | labels => rfl
    | below hc | above hc => cases hc

/-- The calls were answered, with room for each of them, and are accounted for. -/
def Accounted (spec : String) (es : List Event) (m : Method) : Prop :=
  Accounts spec (es.map Runs.Event.call) es m ∧ Fits spec (es.map Runs.Event.call)

theorem accounted_empty (spec : String) : Accounted spec [] (empty spec) :=
  ⟨accounts_empty spec, fits_nil spec⟩

/-- Every call that is served is accounted for. -/
theorem Accounted.serve {a : Answer} (h : Accounted spec es m) (hm : m.serve c = .ok (a, m')) :
    Accounted spec (es ++ [⟨c, a⟩]) m' := by
  obtain ⟨haccounts, hfits⟩ := h
  unfold Accounted
  rw [List.map_append]
  refine ⟨haccounts.serve hm, hfits.concat fun f hbreaks => ?_⟩
  cases hm.symm.trans (haccounts.serve_error_iff.mpr hbreaks)

/-- A run goes as far as there is room, and what was answered is accounted for. -/
theorem serveAll_cases (spec : String) (cs : List Call) :
    (∃ es m, (empty spec).serveAll cs = (es, .ok m) ∧ Accounts spec cs es m ∧ Fits spec cs) ∨
    ∃ es c f, (empty spec).serveAll cs = (es, .error f) ∧ cs[es.length]? = some c ∧
      Fits spec (cs.take es.length) ∧ Breaks spec (cs.take es.length) c f := by
  rcases Runs.upToFailure_cases Accounted.serve cs (accounted_empty spec) with
    ⟨es, m, hok, rfl, h⟩ | ⟨es, m, c, later, f, herror, rfl, h, hf⟩
  · exact .inl ⟨es, m, hok, h⟩
  · have htake : (es.map Runs.Event.call ++ c :: later).take es.length = es.map Runs.Event.call :=
      List.take_left' (List.length_map _)
    refine .inr ⟨es, c, f, herror, by simp, ?_⟩
    rw [htake]
    exact ⟨h.2, h.1.serve_error_iff.mp hf⟩

/-- A run is answered to its end just if there is room for every call. -/
theorem serveAll_ok_iff :
    (∃ es m, (empty spec).serveAll cs = (es, .ok m)) ↔ Fits spec cs := by
  rcases serveAll_cases spec cs with ⟨es, m, hok, -, hfits⟩ | ⟨es, c, f, herror, hc, -, hbreaks⟩
  · exact ⟨fun _ => hfits, fun _ => ⟨es, m, hok⟩⟩
  · refine ⟨?_, fun hfits => absurd hbreaks (hfits _ c hc f)⟩
    rintro ⟨es', m, hok⟩
    cases herror.symm.trans hok

/-- A run ends in a fault just at the first call for which there is no room. -/
theorem serveAll_error_iff {n : Nat} :
    (∃ es, es.length = n ∧ (empty spec).serveAll cs = (es, .error f)) ↔
      Fits spec (cs.take n) ∧ ∃ c, cs[n]? = some c ∧ Breaks spec (cs.take n) c f := by
  rcases serveAll_cases spec cs with ⟨es, m, hok, -, hfits⟩ | ⟨es, c, g, herror, hc, hfits, hbreaks⟩
  · constructor
    · rintro ⟨es', -, herror⟩
      cases hok.symm.trans herror
    · rintro ⟨-, c, hc, hbreaks⟩
      exact absurd hbreaks (hfits n c hc f)
  · constructor
    · rintro ⟨es', rfl, herror'⟩
      cases herror.symm.trans herror'
      exact ⟨hfits, c, hc, hbreaks⟩
    · rintro ⟨hfits', d, hd, hbreaks'⟩
      -- two calls that are the first to break are the same one
      rcases Nat.lt_trichotomy n es.length with hlt | rfl | hlt
      · exact absurd hbreaks' (hfits.not_breaks hlt hd)
      · cases hc.symm.trans hd
        exact ⟨es, rfl, hbreaks'.unique hbreaks ▸ herror⟩
      · exact absurd hbreaks (hfits'.not_breaks hlt hc)

/-- What a method tells about itself, once the calls `cs` were answered as `es` has it. -/
structure SettledBy (m : Method) (cs : List Call) (es : List Event) : Prop where
  calls : es.map Runs.Event.call = cs
  maxDepth : IsGreatest (depths (emitted cs)) m.maxDepth
  locals : m.locals = wordsReserved cs
  reserved : (reservations es).map (fun r => (r.var, r.ty)) = cs.filterMap Call.reserved?
  disjoint : (reservations es).Pairwise fun r s => Disjoint r.words s.words
  below : ∀ r ∈ reservations es, ∀ n ∈ r.words, n < m.locals
  latest : ∀ v, m.slot? v = ((reservations es).reverse.find? (·.var = v)).map Reservation.slot
  labels : labelsGiven es = (List.range (cs.count .newLabel)).map Label.mk
  distinct : ((labelsGiven es).map Label.text).Nodup

theorem Accounts.settledBy (h : Accounts spec cs es m) : m.SettledBy cs es where
  calls := h.calls
  maxDepth := h.depths.greatest
  locals := h.slots.locals
  reserved := h.slots.vars
  disjoint := h.slots.apart.imp fun hle =>
    Finset.disjoint_left.mpr fun n hr hs => by
      rw [Reservation.words, Finset.mem_Ico] at hr hs
      omega
  below := by
    intro r hr n hn
    have hle := h.slots.within r hr
    rw [Reservation.words, Finset.mem_Ico] at hn
    omega
  latest := h.slots.latest
  labels := h.labels.given
  distinct := by
    rw [h.labels.given, List.map_map]
    refine List.Nodup.map (Label.text_injective.comp ?_) List.nodup_range
    intro k n heq
    exact congrArg Label.index heq

/-- **A method keeps its accounts.** If all calls are answered, the method tells what they say. They
are answered unless one of them breaks; then the run ends there, with the fault of that call. -/
theorem serveAll_keeps_accounts (spec : String) (cs : List Call) :
    (∀ es m, (empty spec).serveAll cs = (es, .ok m) → m.SettledBy cs es) ∧
    ((∃ es m, (empty spec).serveAll cs = (es, .ok m)) ↔ Fits spec cs) ∧
    ∀ n f, (∃ es, es.length = n ∧ (empty spec).serveAll cs = (es, .error f)) ↔
      Fits spec (cs.take n) ∧ ∃ c, cs[n]? = some c ∧ Breaks spec (cs.take n) c f := by
  refine ⟨?_, serveAll_ok_iff, fun n f => serveAll_error_iff⟩
  intro es m hm
  rcases serveAll_cases spec cs with ⟨es', m', hok, haccounts, -⟩ | ⟨es', c, f, herror, -⟩
  · cases hok.symm.trans hm
    exact haccounts.settledBy
  · cases herror.symm.trans hm

theorem serveAll_keeps_accounts_moved :
    ∃ es m, (empty "f()V").serveAll [.reserve ⟨0⟩ .double, .emit (.iconst 7), .reserve ⟨0⟩ .int,
      .newLabel, .emit (.pop .int)] = (es, .ok m) ∧ m.slot? ⟨0⟩ = some 2 ∧ m.maxDepth = 1 ∧
      m.SettledBy [.reserve ⟨0⟩ .double, .emit (.iconst 7), .reserve ⟨0⟩ .int, .newLabel,
        .emit (.pop .int)] es :=
  ⟨_, _, rfl, rfl, rfl, (serveAll_keeps_accounts _ _).1 _ _ rfl⟩

/-! ## Counters that run out -/

section Replicate

variable {n : Nat}

/-- A call that is made again and again is answered until it breaks. -/
theorem serveAll_replicate_error (h : ∀ k < n, ∀ f, ¬ Breaks spec (List.replicate k c) c f)
    (hn : Breaks spec (List.replicate n c) c f) :
    ((empty spec).serveAll (List.replicate (n + 1) c)).2 = .error f := by
  have htake : (List.replicate (n + 1) c).take n = List.replicate n c := by
    rw [List.take_replicate, Nat.min_eq_left (Nat.le_succ n)]
  have hfits : Fits spec (List.replicate n c) := by
    intro k d hd f
    rw [List.getElem?_replicate] at hd
    split at hd
    · next hk =>
      cases hd
      rw [List.take_replicate, Nat.min_eq_left (Nat.le_of_lt hk)]
      exact h k hk f
    · cases hd
  have hlast : (List.replicate (n + 1) c)[n]? = some c := by
    rw [List.getElem?_replicate, if_pos (Nat.lt_succ_self n)]
  obtain ⟨es, -, herror⟩ := serveAll_error_iff.mpr ⟨htake ▸ hfits, c, hlast, htake ▸ hn⟩
  rw [herror]

theorem emitted_replicate {i : Instruction} :
    emitted (List.replicate n (.emit i)) = List.replicate n i :=
  List.filterMap_replicate_of_some rfl

theorem depthBehind_replicate {i : Instruction} :
    depthBehind (List.replicate n i) = n * i.effect := by
  rw [depthBehind, List.map_replicate, List.sum_replicate, Int.nsmul_eq_mul]

/-- An instruction that pushes is emitted until the depth is too great to be counted. -/
theorem serveAll_tooDeep {i : Instruction} (hi : 0 ≤ i.effect) (hn : n * i.effect ≤ 2 ^ 31 - 1)
    (hsucc : 2 ^ 31 - 1 < (n + 1 : Nat) * i.effect) :
    ((empty spec).serveAll (List.replicate (n + 1) (.emit i))).2 = .error .tooDeep := by
  have hdepth (k : Nat) : depthBehind (emitted (List.replicate k (.emit i)) ++ [i]) =
      (k + 1 : Nat) * i.effect := by
    rw [emitted_replicate, ← List.replicate_succ', depthBehind_replicate]
  refine serveAll_replicate_error ?_ (.above rfl (by rwa [hdepth]))
  rintro k hk f (⟨hc, hbelow⟩ | ⟨hc, habove⟩ | _ | _)
  · cases hc
    rw [hdepth] at hbelow
    exact absurd hbelow (Int.not_lt.mpr (Int.mul_nonneg (Int.natCast_nonneg _) hi))
  · cases hc
    rw [hdepth] at habove
    have hle : ((k + 1 : Nat) : Int) * i.effect ≤ n * i.effect :=
      Int.mul_le_mul_of_nonneg_right (Int.ofNat_le.mpr hk) hi
    omega

/-- The counter of labels runs out. -/
theorem serveAll_tooManyLabels :
    ((empty spec).serveAll (List.replicate (2 ^ 32 - 1 + 1) .newLabel)).2 =
      .error .tooManyLabels := by
  generalize hn : 2 ^ 32 - 1 = n
  refine serveAll_replicate_error ?_ (.labels ?_)
  · rintro k hk f (⟨⟨⟩, _⟩ | ⟨⟨⟩, _⟩ | _ | hlabels)
    rw [List.count_replicate_self] at hlabels
    omega
  · rw [List.count_replicate_self]
    omega

end Replicate

/-- A run ends although no depth is negative and nothing is reserved: at a depth that is too great,
and at one label too many. -/
theorem counters_run_out :
    ((empty "f()V").serveAll (List.replicate 32769 (.emit (.invoke "g" 0 65535)))).2 =
      .error .tooDeep ∧
    (∀ d ∈ depths (emitted (List.replicate 32769 (.emit (.invoke "g" 0 65535)))), 0 ≤ d) ∧
    ((empty "f()V").serveAll (List.replicate (2 ^ 32) .newLabel)).2 = .error .tooManyLabels := by
  refine ⟨serveAll_tooDeep (n := 32768) (by decide) (by decide) (by decide), ?_,
    serveAll_tooManyLabels⟩
  rintro d ⟨front, hfront, rfl⟩
  rw [emitted_replicate] at hfront
  rw [List.prefix_iff_eq_take.mp hfront, List.take_replicate, depthBehind_replicate]
  exact Int.mul_nonneg (Int.natCast_nonneg _) (by decide)

end MiniC.Jvm.Method
