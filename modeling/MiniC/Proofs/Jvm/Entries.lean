import MiniC.Proofs.Jvm.AssemblyLines
import MiniC.Proofs.Jvm.CallTable

/-!
# What the lines of a module define and call

Two kinds of lines tie the methods of a class together: the header of a method gives its name and
its descriptor, and an `invokestatic` refers to a method by class, name and descriptor. Both are
told by the first word of the line. All headers and calls of a module can be listed: those of its
fixed part, and those of its methods.
-/

namespace MiniC.Jvm

/-- A line that defines a method or calls one. -/
inductive Entry where
  | header (name descriptor : String)
  | call (method : String)
deriving Repr, DecidableEq

namespace Entry

/-- The name and the descriptor in a header. -/
def header? : Entry → Option (String × String)
  | header name descriptor => some (name, descriptor)
  | call _ => none

def call? : Entry → Option String
  | header _ _ => none
  | call method => some method

end Entry

/-! ## Reading lines -/

/-- What stands behind the first word of a line, if it is the given one. -/
def operand? (word : String) (line : List Char) : Option (List Char) :=
  let start := word.toList ++ [' ']
  let cs := line.dropWhile (· = ' ')
  if start.isPrefixOf cs then some (cs.drop start.length) else none

/-- The header with the given operand. Its last word is the name of the method, up to the first
parenthesis, and the descriptor. -/
def headerOf (operand : List Char) : Entry :=
  let spec := (operand.reverse.takeWhile (· ≠ ' ')).reverse
  .header (String.ofList (spec.takeWhile (· ≠ '('))) (String.ofList (spec.dropWhile (· ≠ '(')))

/-- What a line of these characters defines or calls. -/
def entryIn? (line : List Char) : Option Entry :=
  match operand? ".method" line with
  | some operand => some (headerOf operand)
  | none => (operand? "invokestatic" line).map fun operand => .call (String.ofList operand)

def entryOf? (line : String) : Option Entry := entryIn? line.toList

/-- The headers and the calls of a text, in order. -/
def entries (text : String) : List Entry := (linesOf text).filterMap entryOf?

/-- Names and descriptors of all methods that a text defines. -/
def headers (text : String) : List (String × String) := (entries text).filterMap Entry.header?

/-- The methods that a text calls. -/
def calls (text : String) : List String := (entries text).filterMap Entry.call?

theorem entryOf?_ofList {cs : List Char} {e : Option Entry} (h : entryIn? cs = e) :
    entryOf? (String.ofList cs) = e := by
  rw [entryOf?, String.toList_ofList, h]

theorem entryIn?_blank (cs : List Char) : entryIn? (' ' :: cs) = entryIn? cs := rfl

/-- Indentation hides no entry. -/
theorem entryOf?_indent (s : String) : entryOf? ("    " ++ s) = entryOf? s := by
  have hblanks : ("    " ++ s).toList = ' ' :: ' ' :: ' ' :: ' ' :: s.toList := by simp
  rw [entryOf?, hblanks, entryIn?_blank, entryIn?_blank, entryIn?_blank, entryIn?_blank, entryOf?]

/-- The header of a method is what stands behind the last blank, split at its first parenthesis. -/
theorem headerOf_append (access : List Char) {name descriptor : List Char}
    (hblank : ' ' ∉ name ++ descriptor) (hname : '(' ∉ name)
    (hdescriptor : descriptor.head? = some '(') :
    headerOf (access ++ ' ' :: (name ++ descriptor)) =
      .header (String.ofList name) (String.ofList descriptor) := by
  obtain ⟨rest, rfl⟩ := List.head?_eq_some_iff.mp hdescriptor
  have hspec : ((access ++ ' ' :: (name ++ '(' :: rest)).reverse.takeWhile (· ≠ ' ')).reverse =
      name ++ '(' :: rest := by
    rw [List.reverse_append, List.reverse_cons, List.append_assoc,
      List.takeWhile_append_of_pos]
    · simp
    · intro c hc
      simpa using fun h : c = ' ' => hblank (h ▸ List.mem_reverse.mp hc)
  have hletters : ∀ c ∈ name, decide (c ≠ '(') = true := by
    intro c hc
    simpa using fun h : c = '(' => hname (h ▸ hc)
  rw [headerOf, hspec, List.takeWhile_append_of_pos hletters,
    List.dropWhile_append_of_pos hletters]
  simp

/-! ## Descriptors -/

/-- The characters that descriptors are made of. -/
theorem descriptor_subset (s : Signature) :
    s.descriptor.toList ⊆ "()ZIDVLjava/lang/String;".toList := by
  have hty : ∀ ty : Ty, ty.descriptor.toList ⊆ "()ZIDVLjava/lang/String;".toList := by
    intro ty
    cases ty <;> simp [Ty.descriptor]
  intro c hc
  simp only [Signature.descriptor, String.toList_append, String.toList_join, List.mem_append,
    List.mem_flatMap, List.mem_map] at hc
  rcases hc with ((hc | ⟨_, ⟨ty, -, rfl⟩, hc⟩) | hc) | hc
  · revert hc c
    simp
  · exact hty ty hc
  · revert hc c
    simp
  · exact hty s.ret hc

/-- The words of the types that are spelled one after the other, in the middle of a class's name or
not. Such a name starts with an `L` and goes up to a semicolon. -/
def wordsIn : Bool → List Char → Nat
  | _, [] => 0
  | true, c :: cs => wordsIn (c ≠ ';') cs
  | false, 'L' :: cs => 1 + wordsIn true cs
  | false, 'D' :: cs => 2 + wordsIn false cs
  | false, 'V' :: cs => wordsIn false cs
  | false, _ :: cs => 1 + wordsIn false cs

def spelledWords (types : String) : Nat := wordsIn false types.toList

/-- A descriptor spells as many words as its type takes. -/
theorem wordsIn_descriptor (ty : Ty) (cs : List Char) :
    wordsIn false (ty.descriptor.toList ++ cs) = ty.words + wordsIn false cs := by
  cases ty <;> simp [Ty.descriptor, Ty.words, wordsIn]

theorem spelledWords_ret (ty : Ty) : spelledWords ty.descriptor = ty.words := by
  have h := wordsIn_descriptor ty []
  rwa [List.append_nil] at h

/-- The descriptors of the parameters spell the words of the parameters. -/
theorem spelledWords_params (s : Signature) :
    spelledWords (String.join (s.params.map Ty.descriptor)) = s.paramWords := by
  unfold spelledWords Signature.paramWords
  rw [String.toList_join, List.flatMap_map]
  induction s.params with
  | nil => rfl
  | cons ty tys ih => rw [List.flatMap_cons, wordsIn_descriptor, ih, List.foldr_cons]

theorem entryOf?_method (spec : String) : entryOf? (".method public static " ++ spec) =
    some (headerOf ("public static".toList ++ ' ' :: spec.toList)) := by
  simp [entryOf?, entryIn?, operand?]

/-- The line of a method's header is read back as its name and descriptor. -/
theorem entryOf?_header {name : String} {s : Signature} (hblank : ' ' ∉ name.toList)
    (hparen : '(' ∉ name.toList) :
    entryOf? (".method public static " ++ (name ++ s.descriptor)) =
      some (.header name s.descriptor) := by
  obtain ⟨rest, hrest, -⟩ := descriptor_toList s
  have hspec : ' ' ∉ name.toList ++ s.descriptor.toList := by
    rw [List.mem_append, not_or]
    exact ⟨hblank, fun h => absurd (descriptor_subset s h) (by simp)⟩
  have hheader := headerOf_append "public static".toList hspec hparen
    (by rw [hrest, List.head?_cons])
  rw [entryOf?_method, String.toList_append, hheader, String.ofList_toList, String.ofList_toList]

/-! ## Lines of methods -/

namespace Instruction

/-- The method that an instruction calls. -/
def callee? : Instruction → Option String
  | .invoke method _ _ => some method
  | _ => none

theorem entryOf?_iconstText (i : Int) : entryOf? (iconstText i) = none := by
  unfold iconstText
  split
  · simp [entryOf?, entryIn?, operand?]
  split
  · simp [entryOf?, entryIn?, operand?]
  split
  · simp [entryOf?, entryIn?, operand?]
  split <;> simp [entryOf?, entryIn?, operand?]

theorem entryOf?_dconstText (d : Double) : entryOf? (dconstText d) = none := by
  unfold dconstText
  split
  · simp [entryOf?, entryIn?, operand?]
  split <;> simp [entryOf?, entryIn?, operand?]

/-- Whatever a constant holds, it stands behind another first word. -/
theorem entryOf?_text (i : Instruction) : entryOf? i.text = i.callee?.map .call := by
  cases i with
  | iconst i => exact entryOf?_iconstText _
  | dconst d => exact entryOf?_dconstText d
  | load ty | store ty | neg ty | ret ty =>
    cases ty <;> simp [text, typeLetter, callee?, entryOf?, entryIn?, operand?]
  | dup ty | pop ty =>
    cases ty <;> simp [text, byWidth, Ty.words, callee?, entryOf?, entryIn?, operand?]
  | arith op ty =>
    cases op <;> cases ty <;>
      simp [text, typeLetter, Arith.text, callee?, entryOf?, entryIn?, operand?]
  | ifCompare cond | ifZero cond =>
    cases cond <;> simp [text, Cond.text, callee?, entryOf?, entryIn?, operand?]
  | sconst | i2d | dcmpg | dcmpl | goto | label | invoke =>
    simp [text, Label.text, callee?, entryOf?, entryIn?, operand?]

/-- An instruction is an entry exactly when it calls. -/
theorem entryOf?_line (i : Instruction) : entryOf? i.line = i.callee?.map .call := by
  rw [← entryOf?_text]
  unfold line
  split
  · rw [String.empty_append]
  · exact entryOf?_indent _

end Instruction

/-- The entries of a method are its header and its calls, in order. -/
theorem Method.filterMap_entryOf?_lines (k : Method) :
    k.lines.filterMap entryOf? = headerOf ("public static".toList ++ ' ' :: k.spec.toList) ::
      k.body.toList.filterMap fun i => i.callee?.map .call := by
  have hlocals : entryOf? ("    .limit locals " ++ toString k.locals) = none := by
    simp [entryOf?, entryIn?, operand?]
  have hstack : entryOf? ("    .limit stack " ++ toString k.maxDepth) = none := by
    simp [entryOf?, entryIn?, operand?]
  have hlast : [".end method"].filterMap entryOf? = [] :=
    List.filterMap_cons_none (entryOf?_ofList rfl)
  rw [Method.lines, List.filterMap_cons_some (entryOf?_method k.spec),
    List.filterMap_cons_none hlocals, List.filterMap_cons_none hstack, List.filterMap_append, hlast,
    List.append_nil, List.filterMap_map]
  exact congrArg (_ :: ·) (List.filterMap_congr fun i _ => i.entryOf?_line)

theorem Method.headers_lines {k : Method} {name descriptor : String}
    (h : entryOf? (".method public static " ++ k.spec) = some (.header name descriptor)) :
    (k.lines.filterMap entryOf?).filterMap Entry.header? = [(name, descriptor)] := by
  have hbody : (fun i : Instruction => (i.callee?.map Entry.call).bind Entry.header?) =
      fun _ => none := by
    funext i
    cases i.callee? <;> rfl
  rw [entryOf?_method] at h
  rw [k.filterMap_entryOf?_lines, Option.some.inj h,
    List.filterMap_cons_some (show Entry.header? _ = _ from rfl), List.filterMap_filterMap, hbody,
    List.filterMap_none]

theorem Method.calls_lines (k : Method) :
    (k.lines.filterMap entryOf?).filterMap Entry.call? =
      k.body.toList.filterMap Instruction.callee? := by
  have hbody : (fun i : Instruction => (i.callee?.map Entry.call).bind Entry.call?) =
      Instruction.callee? := by
    funext i
    cases i.callee? <;> rfl
  rw [k.filterMap_entryOf?_lines,
    List.filterMap_cons_none (show Entry.call? (headerOf _) = none from rfl),
    List.filterMap_filterMap, hbody]

/-! ## Lines of modules -/

/-- The headers and the call of the fixed part. -/
def supportEntries (c : String) : List Entry := [
  .header "<init>" "()V",
  .header "<clinit>" "()V",
  .header "main" "([Ljava/lang/String;)V",
  .call (c ++ "/main()V"),
  .header "printInt" "(I)V",
  .header "printDouble" "(D)V",
  .header "printString" "(Ljava/lang/String;)V",
  .header "readInt" "()I",
  .header "readDouble" "()D",
  .header "readString" "()Ljava/lang/String;"]

theorem filterMap_entryOf?_supportLines (c : String) :
    (supportLines c).filterMap entryOf? = supportEntries c := by
  have hclass : entryOf? (".class public " ++ c) = none := by simp [entryOf?, entryIn?, operand?]
  have hput : entryOf? ("    putstatic " ++ c ++ "/scanner Ljava/util/Scanner;") = none := by
    simp [entryOf?, entryIn?, operand?]
  have hget : entryOf? ("    getstatic " ++ c ++ "/scanner Ljava/util/Scanner;") = none := by
    simp [entryOf?, entryIn?, operand?]
  have hcall : entryOf? ("    invokestatic " ++ c ++ "/main()V") =
      some (.call (c ++ "/main()V")) := by
    simp [entryOf?, entryIn?, operand?]
  unfold supportLines supportEntries
  -- line by line; the lines without the name of the class are literals, to be evaluated
  repeat first
    | rewrite [List.filterMap_cons_none hclass]
    | rewrite [List.filterMap_cons_none hput]
    | rewrite [List.filterMap_cons_none hget]
    | rewrite [List.filterMap_cons_some hcall, List.cons_inj_right]
    | refine (List.filterMap_cons_none (entryOf?_ofList rfl)).trans ?_
    | refine (List.filterMap_cons_some (entryOf?_ofList rfl)).trans (congrArg (_ :: ·) ?_)
  rfl

/-- The entries of a module's text are those of its support code and of its methods. -/
theorem Module.entries_text {m : Module} (h : ∀ l ∈ m.lines, OneLine l) :
    entries m.text =
      supportEntries m.className ++ m.methods.flatMap fun k => k.lines.filterMap entryOf? := by
  have hempty : entryOf? "" = none := entryOf?_ofList rfl
  rw [entries, m.text_eq_endLines, linesOf_endLines h, List.filterMap_append,
    List.filterMap_cons_none hempty, List.filterMap_nil, List.append_nil, Module.lines,
    List.filterMap_append, filterMap_entryOf?_supportLines, List.filterMap_flatMap]
  rfl

/-- The fixed part defines what starts the program, and the built-in functions. -/
theorem supportHeaders_perm (c : String) :
    ((supportEntries c).filterMap Entry.header?).Perm
      ([("<init>", "()V"), ("<clinit>", "()V"), ("main", "([Ljava/lang/String;)V")] ++
        Builtin.signatures.map fun e => (e.1, e.2.descriptor)) := by
  have h : (supportEntries c).filterMap Entry.header? =
      (supportEntries "").filterMap Entry.header? := rfl
  rw [h]
  decide

/-- The support code defines every builtin function under its own descriptor. -/
theorem header_mem_supportLines (c : String) {e : String × Signature}
    (he : e ∈ Builtin.signatures) :
    ".method public static " ++ (e.1 ++ e.2.descriptor) ∈ supportLines c := by
  simp only [Builtin.signatures, List.mem_cons, List.not_mem_nil, or_false] at he
  rcases he with rfl | rfl | rfl | rfl | rfl | rfl
  all_goals simp [supportLines, Signature.descriptor, Ty.descriptor]

/-- If no header is repeated in a text, a line with a header is not either. -/
theorem count_line_of_nodup {text line : String} {name descriptor : String}
    (h : (headers text).Nodup) (hmem : line ∈ linesOf text)
    (hline : entryOf? line = some (.header name descriptor)) : (linesOf text).count line = 1 := by
  have hle : (linesOf text).count line ≤ 1 := by
    by_contra hlt
    have htwice : List.Sublist [line, line] (linesOf text) :=
      List.replicate_sublist_iff.mpr (Nat.lt_of_not_le hlt)
    have hheaders : List.Sublist [(name, descriptor), (name, descriptor)] (headers text) := by
      simpa [headers, entries, hline, Entry.header?] using
        (htwice.filterMap entryOf?).filterMap Entry.header?
    exact absurd (h.sublist hheaders) (by simp)
  exact Nat.le_antisymm hle (List.count_pos_iff.mpr hmem)

end MiniC.Jvm
