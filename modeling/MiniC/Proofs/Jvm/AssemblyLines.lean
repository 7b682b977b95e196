import MiniC.Jvm.Module

/-!
# The lines of a module text

The assembler reads a module line by line. Nothing that stands in a line breaks it: numbers are
digits with signs, points and exponents, and a string constant has its line breaks escaped. The
names of classes and functions are the only texts that come from elsewhere.
-/

namespace MiniC

/-- The text has no line break. -/
def OneLine (s : String) : Prop := '\n' ∉ s.toList

instance (s : String) : Decidable (OneLine s) := inferInstanceAs (Decidable (_ ∉ _))

/-- A concatenation is one line exactly when both parts are. -/
@[simp]
theorem oneLine_append {s t : String} : OneLine (s ++ t) ↔ OneLine s ∧ OneLine t := by
  simp [OneLine, not_or]

/-! ## Numbers -/

theorem ne_newline_of_isDigit {c : Char} (h : c.isDigit = true) : c ≠ '\n' := by
  rintro rfl
  exact absurd h (by decide)

/-- Numbers are written on one line. -/
theorem oneLine_nat (n : Nat) : OneLine (toString n) := by
  intro h
  rw [Nat.toString_eq_repr, Nat.toList_repr] at h
  exact ne_newline_of_isDigit (Nat.isDigit_of_mem_toDigits (by decide) (Nat.le_refl 10) h) rfl

theorem oneLine_int (i : Int) : OneLine (toString i) := by
  cases i with
  | ofNat n => exact oneLine_nat n
  | negSucc n => exact oneLine_append.mpr ⟨by decide, oneLine_nat (n + 1)⟩

namespace Double

/-- The digits of a number are digits. -/
theorem digitsOf_isDigit {n : Nat} {g : Int} {c : Char} (h : c ∈ (digitsOf n g).digits) :
    c.isDigit = true := by
  have hmem := List.dropWhile_subset _ (List.mem_reverse.mp h)
  exact Nat.isDigit_of_mem_toDigits (by decide) (Nat.le_refl 10) (List.mem_reverse.mp hmem)

theorem shortest_isDigit {d : Double} {c : Char} (h : c ∈ d.shortest.digits) :
    c.isDigit = true := by
  unfold shortest at h
  cases hfind : ((List.range 17).map fun n => decimalTop d.interval.value d.interval.den -
      (n + 1 : Nat)).findSome? fun g => ((d.interval.onGrid g).nearest?).map fun n =>
        digitsOf n g with
  | none =>
    simp only [hfind, Option.getD_none] at h
    cases h
  | some n =>
    simp only [hfind, Option.getD_some] at h
    obtain ⟨g, -, hg⟩ := List.exists_of_findSome?_eq_some hfind
    obtain ⟨k, -, rfl⟩ := Option.map_eq_some_iff.mp hg
    exact digitsOf_isDigit h

/-- Positional notation adds a point and zeros to the digits, and no newline. -/
theorem newline_not_mem_positional {n : Digits} (h : '\n' ∉ n.digits) : '\n' ∉ positional n := by
  have htake : ∀ k, '\n' ∉ n.digits.take k := fun _ hmem => h (List.mem_of_mem_take hmem)
  have hdrop : ∀ k, '\n' ∉ n.digits.drop k := fun _ hmem => h (List.mem_of_mem_drop hmem)
  unfold positional
  split
  · simp [h]
  · have hfraction : '\n' ∉ if (n.digits.drop n.point.toNat).isEmpty then ['0']
        else n.digits.drop n.point.toNat := by
      split
      · decide
      · exact hdrop _
    simp only [List.mem_append, not_or]
    exact ⟨⟨⟨htake _, by simp⟩, by decide⟩, hfraction⟩

/-- Exponential notation adds a point, a sign and the exponent, and no newline. -/
theorem newline_not_mem_exponential {n : Digits} (rule : PointRule) (h : '\n' ∉ n.digits) :
    '\n' ∉ exponential rule n := by
  have htake : '\n' ∉ n.digits.take 1 := fun hmem => h (List.mem_of_mem_take hmem)
  have htail : '\n' ∉ n.digits.tail := fun hmem => h (List.mem_of_mem_tail hmem)
  have hexponent : '\n' ∉ (toString (n.point - 1)).toList := oneLine_int _
  unfold exponential
  simp only [List.mem_append, not_or]
  refine ⟨⟨⟨htake, ?_⟩, by decide⟩, hexponent⟩
  split
  · decide
  · decide
  · simp [htail]

/-- A double is written on one line, under either rule for its point. -/
theorem oneLine_render (rule : PointRule) (d : Double) : OneLine (d.render rule) := by
  have hdigits : '\n' ∉ d.shortest.digits := fun h => ne_newline_of_isDigit (shortest_isDigit h) rfl
  have hmagnitude : '\n' ∉ magnitudeText rule d := by
    unfold magnitudeText
    split
    · decide
    · dsimp only
      split
      · exact newline_not_mem_positional hdigits
      · exact newline_not_mem_exponential rule hdigits
  unfold render
  split
  · decide
  · simp only [OneLine, String.toList_ofList, List.mem_append, not_or]
    constructor
    · split <;> decide
    · split
      · exact hmagnitude
      · decide

end Double

/-! ## Instructions -/

namespace Jvm

/-- A newline in a string constant is escaped. -/
theorem newline_not_mem_escapeChar (c : Char) : '\n' ∉ Instruction.escapeChar c := by
  unfold Instruction.escapeChar
  repeat' split
  all_goals simp_all [eq_comm]

/-- The line breaks of a string constant are escaped. -/
theorem oneLine_stringLiteral (s : String) : OneLine (Instruction.stringLiteral s) := by
  simp [OneLine, Instruction.stringLiteral, newline_not_mem_escapeChar]

theorem Label.oneLine_text (l : Label) : OneLine l.text :=
  oneLine_append.mpr ⟨by decide, oneLine_nat _⟩

namespace Instruction

theorem oneLine_iconstText (i : Int) : OneLine (iconstText i) := by
  have happend : ∀ s : String, OneLine s → OneLine (s ++ toString i) :=
    fun s hs => oneLine_append.mpr ⟨hs, oneLine_int i⟩
  unfold iconstText
  split
  · decide
  split
  · exact happend _ (by decide)
  split
  · exact happend _ (by decide)
  split
  · exact happend _ (by decide)
  · exact happend _ (by decide)

theorem oneLine_dconstText (d : Double) : OneLine (dconstText d) := by
  unfold dconstText
  split
  · decide
  split
  · decide
  · exact oneLine_append.mpr ⟨by decide, d.oneLine_render _⟩

/-- The name of a method is all that may break the line of an instruction. -/
theorem oneLine_text {i : Instruction}
    (h : ∀ method args result, i = .invoke method args result → OneLine method) :
    OneLine i.text := by
  cases i with
  | iconst i => exact oneLine_iconstText _
  | dconst d => exact oneLine_dconstText d
  | sconst s => exact oneLine_append.mpr ⟨by decide, oneLine_stringLiteral s⟩
  | load ty slot | store ty slot =>
    exact oneLine_append.mpr ⟨by cases ty <;> decide, oneLine_nat slot⟩
  | arith op ty => cases op <;> cases ty <;> decide
  | neg ty | dup ty | pop ty | ret ty => cases ty <;> decide
  | i2d | dcmpg | dcmpl => decide
  | ifCompare cond target | ifZero cond target =>
    exact oneLine_append.mpr ⟨by cases cond <;> decide, target.oneLine_text⟩
  | goto target => exact oneLine_append.mpr ⟨by decide, target.oneLine_text⟩
  | invoke method args result => exact oneLine_append.mpr ⟨by decide, h _ _ _ rfl⟩
  | label l => exact oneLine_append.mpr ⟨l.oneLine_text, by decide⟩

/-- The line of an instruction, without its end. -/
def line (i : Instruction) : String := (if i.isLabel then "" else "    ") ++ i.text

/-- The line of an instruction is one line as soon as the method it may invoke is named on one. -/
theorem oneLine_line {i : Instruction}
    (h : ∀ method args result, i = .invoke method args result → OneLine method) :
    OneLine i.line := by
  refine oneLine_append.mpr ⟨?_, oneLine_text h⟩
  split <;> decide

end Instruction

/-! ## Methods and modules -/

/-- The lines of a text. A text that ends in a line break has an empty last line. -/
def linesOf (text : String) : List String := (text.toList.splitOn '\n').map String.ofList

/-- Lines with their ends. -/
def endLines (ls : List String) : String := String.join (ls.map (· ++ "\n"))

theorem endLines_append (ls ls' : List String) :
    endLines (ls ++ ls') = endLines ls ++ endLines ls' := by
  simp [endLines]

theorem endLines_cons (l : String) (ls : List String) :
    endLines (l :: ls) = l ++ "\n" ++ endLines ls := by
  simp [endLines]

/-- Lines that were ended one by one are given back, with an empty rest behind the last. -/
theorem linesOf_endLines {ls : List String} (h : ∀ l ∈ ls, OneLine l) :
    linesOf (endLines ls) = ls ++ [""] := by
  induction ls with
  | nil => simp [linesOf, endLines]
  | cons l ls ih =>
    have hl : '\n' ∉ l.toList := h l List.mem_cons_self
    have hfirst : linesOf (l ++ "\n" ++ endLines ls) = l :: linesOf (endLines ls) := by
      simp [linesOf, List.splitOn_append_cons_self_of_not_mem hl]
    rw [endLines_cons, hfirst, ih fun l hl => h l (List.mem_cons_of_mem _ hl), List.cons_append]

/-- The lines of a method. -/
def Method.lines (k : Method) : List String :=
  (".method public static " ++ k.spec) :: ("    .limit locals " ++ toString k.locals) ::
    ("    .limit stack " ++ toString k.maxDepth) ::
      (k.body.toList.map Instruction.line ++ [".end method"])

/-- The text of a method is made of its lines. -/
theorem Method.text_eq_endLines (k : Method) : k.text = endLines k.lines := by
  have hbody : String.join (k.body.toList.map Method.lineText) =
      endLines (k.body.toList.map Instruction.line) := by
    rw [endLines, List.map_map]
    rfl
  have hlast : endLines [".end method"] = ".end method\n" := by decide
  have hassoc (x a y b z c e body last : String) :
      x ++ a ++ e ++ y ++ b ++ e ++ z ++ c ++ e ++ body ++ last =
        (x ++ a) ++ e ++ ((y ++ b) ++ e ++ ((z ++ c) ++ e ++ (body ++ last))) := by
    simp only [String.append_assoc]
  refine (hassoc _ _ _ _ _ _ _ _ _).trans ?_
  rw [hbody, ← hlast, ← endLines_append, ← endLines_cons, ← endLines_cons, ← endLines_cons]
  rfl

/-- Every line of a method is one line. -/
theorem Method.oneLine_lines {k : Method} (hspec : OneLine k.spec)
    (hbody : ∀ method args result, .invoke method args result ∈ k.body.toList → OneLine method) :
    ∀ l ∈ k.lines, OneLine l := by
  have hins : ∀ i ∈ k.body.toList, OneLine i.line := by
    rintro i hi
    refine Instruction.oneLine_line ?_
    rintro method args result rfl
    exact hbody _ _ _ hi
  simp only [Method.lines, List.forall_mem_cons, List.forall_mem_append, List.forall_mem_map]
  exact ⟨oneLine_append.mpr ⟨by decide, hspec⟩, oneLine_append.mpr ⟨by decide, oneLine_nat _⟩,
    oneLine_append.mpr ⟨by decide, oneLine_nat _⟩, hins, by decide, List.forall_mem_nil _⟩

theorem oneLine_supportLines {c : String} (hc : OneLine c) : ∀ l ∈ supportLines c, OneLine l := by
  -- a literal is the text of its characters, and there it is quick to look
  have hliteral : ∀ {cs : List Char}, '\n' ∉ cs → OneLine (String.ofList cs) := by
    intro cs h
    rwa [OneLine, String.toList_ofList]
  simp only [supportLines, List.forall_mem_cons, oneLine_append, hc, and_true,
    and_assoc]
  repeat refine ⟨hliteral (by decide), ?_⟩
  exact List.forall_mem_nil _

/-- The lines of a module, up to the empty last one. -/
def Module.lines (m : Module) : List String :=
  supportLines m.className ++ m.methods.flatMap fun k => "" :: k.lines

/-- The methods of a module are written with an empty line in front of each. -/
theorem code_eq_endLines (ks : List Method) :
    String.join (ks.map fun k => "\n" ++ k.text) =
      endLines (ks.flatMap fun k => "" :: k.lines) := by
  induction ks with
  | nil => rfl
  | cons k ks ih =>
    rw [List.map_cons, String.join_cons, ih, List.flatMap_cons, endLines_append, endLines_cons,
      k.text_eq_endLines, String.empty_append]

/-- The text of a module is made of its lines. -/
theorem Module.text_eq_endLines (m : Module) : m.text = endLines m.lines :=
  calc m.text
    _ = endLines (supportLines m.className) ++
        endLines (m.methods.flatMap fun k => "" :: k.lines) :=
      congrArg (support m.className ++ ·) (code_eq_endLines m.methods)
    _ = endLines m.lines := (endLines_append _ _).symm

end Jvm

end MiniC
