import MiniC.Proofs.Jvm.Op
import MiniC.Proofs.Core.Typing
import MiniC.Proofs.Except
import MiniC.Proofs.Jvm.StackTyping

/-!
# From operations to instructions

Variables are reserved in the order of their numbers, so the slot of a variable is the number of
words of the variables before it, whatever is reserved later. Once the slots are known, the body of
a method is read off its operations one by one (`lower`). Performing operations can then fail in one
way only: the variables need more words than the machine can address.
-/

namespace MiniC.Jvm

open MiniC.Core (VarTypes)

/-! ## Slots -/

/-- The words that variables of the given types take together. -/
def wordsOf (tys : List Ty) : Nat := tys.foldr (fun ty n => ty.words + n) 0

/-- The slot of a variable: the words of the variables before it. -/
def slotIn (vars : VarTypes) (v : VarId) : Nat := wordsOf (vars.take v.index)

@[simp] theorem wordsOf_nil : wordsOf [] = 0 := rfl

@[simp] theorem wordsOf_cons (ty : Ty) (tys : List Ty) :
    wordsOf (ty :: tys) = ty.words + wordsOf tys := rfl

@[simp] theorem wordsOf_append (as bs : List Ty) :
    wordsOf (as ++ bs) = wordsOf as + wordsOf bs := by
  induction as with
  | nil => simp
  | cons ty as ih =>
    rw [List.cons_append, wordsOf_cons, wordsOf_cons, ih]
    omega

theorem slotIn_append {vars : VarTypes} {v : VarId} (h : v.index ≤ vars.length)
    (more : List Ty) : slotIn (vars ++ more) v = slotIn vars v := by
  unfold slotIn
  rw [List.take_append_of_le_length h]

/-- A slot does not depend on what is declared later. -/
theorem slotIn_of_isPrefix {vars total : VarTypes} {v : VarId} (h : vars <+: total)
    (hv : v.index ≤ vars.length) : slotIn total v = slotIn vars v := by
  obtain ⟨more, rfl⟩ := h
  exact slotIn_append hv more

/-- The words of a variable end where those of the next one start, or before. -/
theorem slotIn_add_words_le {vars : VarTypes} {v w : VarId} {ty : Ty}
    (hv : vars[v.index]? = some ty) (hlt : v.index < w.index) :
    slotIn vars v + ty.words ≤ slotIn vars w := by
  have hnext : wordsOf (vars.take (v.index + 1)) = slotIn vars v + ty.words := by
    rw [List.take_add_one, hv]
    simp [slotIn]
  obtain ⟨more, hmore⟩ : vars.take (v.index + 1) <+: vars.take w.index :=
    List.take_prefix_take_left hlt
  unfold slotIn at hnext ⊢
  rw [← hmore, wordsOf_append, ← hnext]
  omega

theorem slotIn_add_words_le_wordsOf {vars : VarTypes} {v : VarId} {ty : Ty}
    (hv : vars[v.index]? = some ty) : slotIn vars v + ty.words ≤ wordsOf vars := by
  have hlt := (List.getElem?_eq_some_iff.mp hv).1
  have h := slotIn_add_words_le (w := ⟨vars.length⟩) hv hlt
  rwa [slotIn, slotIn, List.take_length] at h

/-! ## Instructions of operations -/

/-- The instruction of an operation, if it has one. -/
def Op.lower (slot : VarId → Nat) : Op → List Instruction
  | .emit i => [i]
  | .load ty v => [.load ty (slot v)]
  | .store ty v => [.store ty (slot v)]
  | .reserve _ _ | .fault _ => []

/-- The instructions of operations, for known slots. -/
def lower (slot : VarId → Nat) (ops : List Op) : List Instruction := ops.flatMap (Op.lower slot)

@[simp] theorem lower_nil (slot : VarId → Nat) : lower slot [] = [] := rfl

@[simp] theorem lower_cons (slot : VarId → Nat) (op : Op) (ops : List Op) :
    lower slot (op :: ops) = op.lower slot ++ lower slot ops := by
  simp [lower]

@[simp] theorem lower_append (slot : VarId → Nat) (as bs : List Op) :
    lower slot (as ++ bs) = lower slot as ++ lower slot bs := by
  simp [lower]

/-- Reserving variables takes no instructions. -/
theorem lower_reserve (slot : VarId → Nat) (vs : List Core.VarDecl) :
    lower slot (vs.map fun v => .reserve v.id v.ty) = [] := by
  induction vs with
  | nil => rfl
  | cons v vs ih => simpa [Op.lower] using ih

/-- The types of the variables that operations reserve. -/
def reserved : List Op → List Ty
  | [] => []
  | .reserve _ ty :: ops => ty :: reserved ops
  | _ :: ops => reserved ops

@[simp] theorem reserved_append (as bs : List Op) :
    reserved (as ++ bs) = reserved as ++ reserved bs := by
  induction as with
  | nil => rfl
  | cons op as ih => cases op <;> simp [reserved, ih]

theorem append_reserved_reserve (vars : VarTypes) (v : VarId) (ty : Ty) (ops : List Op) :
    vars ++ reserved (.reserve v ty :: ops) = vars ++ [ty] ++ reserved ops := by
  simp [reserved]

/-- Variables are reserved in order and used only afterwards, with the types they were reserved
with, and there is no fault. -/
def Placed (vars : VarTypes) : List Op → Prop
  | [] => True
  | .emit _ :: ops => Placed vars ops
  | .load ty v :: ops | .store ty v :: ops => vars[v.index]? = some ty ∧ Placed vars ops
  | .reserve v ty :: ops => v.index = vars.length ∧ Placed (vars ++ [ty]) ops
  | .fault _ :: _ => False

theorem placed_append {as bs : List Op} {vars : VarTypes} :
    Placed vars (as ++ bs) ↔ Placed vars as ∧ Placed (vars ++ reserved as) bs := by
  induction as generalizing vars with
  | nil => simp [Placed, reserved]
  | cons op as ih => cases op <;> simp [Placed, reserved, ih, and_assoc]

/-! ## Methods -/

namespace Method

variable {sigs : MethodTypes} {m : Method} {vars : VarTypes} {σ τ : StackTy}

/-- Just the variables `vars` have slots. -/
structure Holds (m : Method) (vars : VarTypes) : Prop where
  locals : m.locals = wordsOf vars
  slots : ∀ v : VarId, v.index < vars.length → m.slot? v = some (slotIn vars v)

theorem holds_empty (spec : String) : (empty spec).Holds [] :=
  ⟨rfl, by intro v hv; simp at hv⟩

/-- An instruction that finds its operands is appended. -/
theorem emit_of_stackAfter {i : Instruction} (h : i.stackAfter sigs σ = some τ)
    (hd : m.depth = width σ) :
    m.emit i = .ok { m with
      body := m.body.push i
      depth := width τ
      maxDepth := max m.maxDepth (width τ) } := by
  have hwidth := Instruction.width_stackAfter h
  have hdepth : (m.depth : Int) + i.effect = (width τ : Nat) := by
    rw [hd, hwidth]
  unfold emit
  rw [hdepth]
  simp

theorem emitAt_of_placed {v : VarId} {ty : Ty} (hm : m.Holds vars)
    (hv : vars[v.index]? = some ty) (i : Nat → Instruction) :
    m.emitAt v i = m.emit (i (slotIn vars v)) := by
  unfold emitAt
  rw [hm.slots v (List.getElem?_eq_some_iff.mp hv).1]

theorem Holds.locals_add {ty : Ty} (hm : m.Holds vars) :
    m.locals + ty.words = wordsOf (vars ++ [ty]) := by
  rw [wordsOf_append, hm.locals]
  rfl

/-- The next variable gets the next free slot, if there is room for it. -/
theorem reserve_of_room {v : VarId} {ty : Ty} (hm : m.Holds vars) (hv : v.index = vars.length)
    (hroom : wordsOf (vars ++ [ty]) ≤ maxLocals) :
    ∃ m', m.reserve v ty = .ok (m.locals, m') ∧ m'.Holds (vars ++ [ty]) ∧ m'.spec = m.spec ∧
      m'.body = m.body ∧ m'.depth = m.depth ∧ m'.maxDepth = m.maxDepth := by
  refine ⟨{ m with locals := m.locals + ty.words, slots := (v, m.locals) :: m.slots }, ?_,
    ⟨hm.locals_add, ?_⟩, rfl, rfl, rfl, rfl⟩
  · unfold reserve
    rw [hm.locals_add, if_pos hroom]
  · intro w hw
    simp only [List.length_append, List.length_singleton] at hw
    rw [slotIn_append (by omega)]
    -- the new variable is found first, and hides no other
    by_cases hlast : w.index = vars.length
    · obtain rfl : w = v := by
        cases w; cases v
        simp_all
      simp [slot?, slotIn, hlast, hm.locals]
    · have hne : w ≠ v := fun h => hlast (h ▸ hv)
      have hold := hm.slots w (by omega)
      simp only [slot?] at hold ⊢
      rw [List.lookup_cons, beq_eq_false_iff_ne.mpr hne]
      exact hold

theorem reserve_of_no_room {v : VarId} {ty : Ty} (hm : m.Holds vars)
    (hroom : ¬ wordsOf (vars ++ [ty]) ≤ maxLocals) :
    m.reserve v ty = .error .tooManyLocals := by
  unfold reserve
  rw [hm.locals_add, if_neg hroom]

/-- `m'` is `m` with the instructions of `ops`, for the slots of `total`, and with the variables
that `ops` reserve. -/
structure Grown (sigs : MethodTypes) (total vars : VarTypes) (σ τ : StackTy) (ops : List Op)
    (m m' : Method) : Prop where
  spec : m'.spec = m.spec
  body : m'.body.toList = m.body.toList ++ lower (slotIn total) ops
  depth : m'.depth = width τ
  maxDepth : m'.maxDepth = max m.maxDepth (peak sigs σ (lower (slotIn total) ops))
  holds : m'.Holds (vars ++ reserved ops)

/-- One instruction, and then the rest. -/
theorem Grown.cons {total : VarTypes} {ρ : StackTy} {i : Instruction} {op : Op} {ops : List Op}
    {m' : Method} (hop : op.lower (slotIn total) = [i]) (hres : reserved (op :: ops) = reserved ops)
    (hi : i.stackAfter sigs σ = some τ)
    (h : Grown sigs total vars τ ρ ops { m with
      body := m.body.push i
      depth := width τ
      maxDepth := max m.maxDepth (width τ) } m') :
    Grown sigs total vars σ ρ (op :: ops) m m' where
  spec := h.spec
  body := by simp [h.body, hop]
  depth := h.depth
  maxDepth := by
    rw [h.maxDepth, lower_cons, hop]
    simp only [List.singleton_append, peak, hi, Option.elim_some]
    omega
  holds := by
    rw [hres]
    exact h.holds

/-- What the instruction of one operation does, and that it can be performed. -/
theorem perform_of_placed {total : VarTypes} {op : Op} {ops : List Op} {i : Instruction}
    (hm : m.Holds vars) (hp : Placed vars (op :: ops)) (ht : vars <+: total)
    (hop : op.lower (slotIn total) = [i]) :
    m.perform op = m.emit i ∧ reserved (op :: ops) = reserved ops ∧ Placed vars ops := by
  cases op with
  | emit j =>
    cases hop
    exact ⟨rfl, rfl, hp⟩
  | load ty v | store ty v =>
    cases hop
    have hlt := (List.getElem?_eq_some_iff.mp hp.1).1
    rw [slotIn_of_isPrefix ht (Nat.le_of_lt hlt)]
    exact ⟨emitAt_of_placed hm hp.1 _, rfl, hp.2⟩
  | reserve v ty | fault f => cases hop

/-- Operations that keep to the rules succeed if their variables fit the machine. -/
theorem run_of_room {total : VarTypes} {ops : List Op} :
    ∀ {m : Method} {vars : VarTypes} {σ : StackTy}, m.Holds vars → Placed vars ops →
      vars ++ reserved ops <+: total → m.depth = width σ →
      flow sigs σ (lower (slotIn total) ops) = some τ →
      wordsOf (vars ++ reserved ops) ≤ maxLocals →
      ∃ m', m.run ops = .ok m' ∧ Grown sigs total vars σ τ ops m m' := by
  induction ops with
  | nil =>
    intro m vars σ hm _ _ hd hflow _
    cases hflow
    exact ⟨m, rfl, rfl, by simp, hd, by simp [peak], by simpa [reserved] using hm⟩
  | cons op ops ih =>
    intro m vars σ hm hp ht hd hflow hroom
    have hprefix : vars <+: total := (List.prefix_append _ _).trans ht
    rcases hop : op.lower (slotIn total) with _ | ⟨i, _ | _⟩
    · -- without an instruction, the operation is a reservation
      cases op with
      | reserve v ty =>
        obtain ⟨hv, hp⟩ := hp
        rw [append_reserved_reserve] at ht hroom
        have hnext : wordsOf (vars ++ [ty]) ≤ maxLocals := by
          rw [wordsOf_append] at hroom
          omega
        obtain ⟨m₁, hreserve, hm₁, hspec, hbody, hdepth, hmax⟩ := reserve_of_room hm hv hnext
        obtain ⟨m', hrun, hgrown⟩ := ih hm₁ hp ht (hdepth.trans hd) hflow hroom
        refine ⟨m', ?_, ⟨hgrown.spec.trans hspec, ?_, hgrown.depth, ?_, ?_⟩⟩
        · simp only [run, perform, hreserve]
          exact hrun
        · rw [hgrown.body, hbody]
          rfl
        · rw [hgrown.maxDepth, hmax]
          rfl
        · rw [append_reserved_reserve]
          exact hgrown.holds
      | fault f => exact hp.elim
      | emit _ | load _ _ | store _ _ => cases hop
    · obtain ⟨hperform, hres, hp⟩ := perform_of_placed hm hp hprefix hop
      rw [hres] at ht hroom
      simp only [lower_cons, hop, List.singleton_append, flow, Option.bind_eq_some_iff] at hflow
      obtain ⟨ρ, hi, hflow⟩ := hflow
      have hemit := emit_of_stackAfter hi hd
      obtain ⟨m', hrun, hgrown⟩ := ih (m := { m with
        body := m.body.push i
        depth := width ρ
        maxDepth := max m.maxDepth (width ρ) }) ⟨hm.locals, hm.slots⟩ hp ht rfl hflow hroom
      refine ⟨m', ?_, hgrown.cons hop hres hi⟩
      simp only [run, hperform, hemit]
      exact hrun
    · cases op <;> cases hop

/-- If the variables do not fit, nothing else goes wrong before that shows. -/
theorem run_of_no_room {total : VarTypes} {ops : List Op} :
    ∀ {m : Method} {vars : VarTypes} {σ : StackTy}, m.Holds vars → Placed vars ops →
      vars ++ reserved ops <+: total → m.depth = width σ →
      flow sigs σ (lower (slotIn total) ops) = some τ →
      wordsOf vars ≤ maxLocals → ¬ wordsOf (vars ++ reserved ops) ≤ maxLocals →
      m.run ops = .error .tooManyLocals := by
  induction ops with
  | nil =>
    intro m vars σ _ _ _ _ _ hfits hroom
    exact absurd (by simpa [reserved] using hfits) hroom
  | cons op ops ih =>
    intro m vars σ hm hp ht hd hflow hfits hroom
    have hprefix : vars <+: total := (List.prefix_append _ _).trans ht
    rcases hop : op.lower (slotIn total) with _ | ⟨i, _ | _⟩
    · cases op with
      | reserve v ty =>
        obtain ⟨hv, hp⟩ := hp
        rw [append_reserved_reserve] at ht hroom
        by_cases hnext : wordsOf (vars ++ [ty]) ≤ maxLocals
        · obtain ⟨m₁, hreserve, hm₁, -, -, hdepth, -⟩ := reserve_of_room hm hv hnext
          simp only [run, perform, hreserve]
          exact ih hm₁ hp ht (hdepth.trans hd) hflow hnext hroom
        · simp only [run, perform, reserve_of_no_room hm hnext]
          rfl
      | fault f => exact hp.elim
      | emit _ | load _ _ | store _ _ => cases hop
    · obtain ⟨hperform, hres, hp⟩ := perform_of_placed hm hp hprefix hop
      rw [hres] at ht hroom
      simp only [lower_cons, hop, List.singleton_append, flow, Option.bind_eq_some_iff] at hflow
      obtain ⟨ρ, hi, hflow⟩ := hflow
      simp only [run, hperform, emit_of_stackAfter hi hd]
      exact ih (m := { m with
        body := m.body.push i
        depth := width ρ
        maxDepth := max m.maxDepth (width ρ) }) ⟨hm.locals, hm.slots⟩ hp ht rfl hflow hfits hroom
    · cases op <;> cases hop

end Method

end MiniC.Jvm
