import Mathlib.Data.List.Forall2
import Mathlib.Data.List.Nodup
import MiniC.Proofs.Compiler.Faults
import MiniC.Proofs.Core.OperandStack
import MiniC.Proofs.Core.Separate
import MiniC.Proofs.Jvm.Entries
import MiniC.Proofs.Surface.ParserSound
import MiniC.Proofs.Token.LexerComplete

/-!
# Calls in a module text

The text of a module defines every method once, and every method of the class that a line of it
calls. What has to agree for that stands in several places: the signatures of the built-in functions
and the fixed part of the class, which implements them; the rules on names, which let the `main` of
the program stand beside the one that the machine starts; and the references, which are written
with the descriptors of the functions. All of it is read off the lines of the text, so that nothing
else in the text can pass for a header or a call.
-/

namespace MiniC

/-! ## Names are words -/

theorem exists_of_forall₂ {α β : Type} {R : α → β → Prop} {as : List α} {bs : List β}
    (h : List.Forall₂ R as bs) : ∀ a ∈ as, ∃ b ∈ bs, R a b := by
  induction h with
  | nil => exact List.forall_mem_nil _
  | cons hab _ ih =>
    refine List.forall_mem_cons.mpr ⟨⟨_, List.mem_cons_self, hab⟩, fun a ha => ?_⟩
    obtain ⟨b, hb, hr⟩ := ih a ha
    exact ⟨b, List.mem_cons_of_mem _ hb, hr⟩

/-- A word has no character that does not belong to words. -/
theorem not_mem_of_isWord {x : String} {c : Char} (hx : IsWord (Byte.ofText x))
    (hc : Byte.isWordPart (Byte.ascii c) = false) : c ∉ x.toList := by
  have hparts := hx.isWordPart
  have htext : Byte.toText (Byte.ofText x) = x :=
    Byte.toText_ofText fun b hb => Byte.toNat_lt_of_isWordPart (hparts b hb)
  intro hmem
  rw [← htext, Byte.toText, String.toList_ofList] at hmem
  obtain ⟨b, hb, rfl⟩ := List.mem_map.mp hmem
  have hbyte : Byte.ascii (Char.ofUInt8 b) = b := UInt8.toUInt8_toUInt32 b
  rw [hbyte, hparts b hb] at hc
  cases hc

theorem Token.Splits.exists_denotes {before text : List UInt8} {ts : List (Located Token)}
    (h : Splits before text ts) : ∀ t ∈ ts, ∃ lexeme, Denotes lexeme t.value := by
  induction h with
  | done => exact List.forall_mem_nil _
  | token _ hdenotes _ _ ih => exact List.forall_mem_cons.mpr ⟨⟨_, hdenotes⟩, ih⟩

theorem isWord_of_tokenize {source x : String} {ts : List (Located Token)} {t : Located Token}
    (h : tokenize source = .ok ts) (ht : t ∈ ts) (hx : t.value = .ident x) :
    IsWord (Byte.ofText x) := by
  have hsplits : Token.Splits [] (Byte.ofText source) ts := Token.tokensFrom_sound h rfl
  obtain ⟨lexeme, hdenotes⟩ := hsplits.exists_denotes t ht
  rw [hx] at hdenotes
  cases hdenotes with
  | symbol hsymbol => exact hsymbol.elim
  | ident hword => exact hword

/-- The name of a function is read from the tokens. -/
theorem Surface.exists_ident_of_parse {ts : List (Located Token)} {p : Program} {f : Function}
    (h : parse ts = .ok p) (hf : f ∈ p) : ∃ t ∈ ts, t.value = .ident f.name.value := by
  obtain ⟨s', hrun⟩ := parse_ok_iff.mp h
  obtain ⟨hreads, -, hend⟩ := functions_sound _ (by omega) hrun
  have hmark : nameMark f.name ∈ programMarks p :=
    List.mem_flatMap.mpr ⟨f, hf, List.mem_cons_of_mem _ List.mem_cons_self⟩
  obtain ⟨t, ht, hvalue, -⟩ := exists_of_forall₂ (hreads.spells hend) _ hmark
  exact ⟨t, ht, hvalue⟩

namespace Compiler

theorem isWord_of_isClassName {x : String} (h : isClassName x = true) :
    IsWord (Byte.ofText x) := by
  unfold isClassName at h
  split at h
  · cases h
  · next b bs hbytes =>
    rw [Bool.and_eq_true, List.all_eq_true] at h
    exact ⟨b, bs, hbytes, h.1, h.2⟩

open MiniC.Core MiniC.Jvm

/-- The functions that an accepted program may call are named by words. -/
theorem isWord_of_mem_functionsOf {source : String} {t : Program}
    (h : checkedProgram source = .ok t) {e : String × Signature} (he : e ∈ functionsOf t) :
    IsWord (Byte.ofText e.1) := by
  obtain ⟨ts, p, hts, hp, hcheck⟩ := checkedProgram_eq_ok.mp h
  rcases List.mem_append.mp he with hbuiltin | huser
  · have hnames : ∀ e ∈ Builtin.signatures, isClassName e.1 = true := by decide
    exact isWord_of_isClassName (hnames e hbuiltin)
  · rw [(checkProgram_wellTyped hcheck).2.1] at huser
    obtain ⟨f, hf, rfl⟩ := List.mem_map.mp huser
    obtain ⟨tok, htok, hvalue⟩ := Surface.exists_ident_of_parse hp hf
    exact isWord_of_tokenize hts htok hvalue

/-! ## Modules of programs -/

/-- The headers of methods are those of their functions. -/
theorem headers_methods {fs : Program} {ks : List Method}
    (h : List.Forall₂ (fun (f : Function) (k : Method) => k.spec = f.spec) fs ks)
    (hwords : ∀ f ∈ fs, IsWord (Byte.ofText f.name)) :
    ks.flatMap (fun k => (k.lines.filterMap entryOf?).filterMap Entry.header?) =
      fs.map fun f => (f.name, f.signature.descriptor) := by
  induction h with
  | nil => rfl
  | @cons f k _ _ hfk _ ih =>
    obtain ⟨hfword, hwords⟩ := List.forall_mem_cons.mp hwords
    have hheader : entryOf? (".method public static " ++ k.spec) =
        some (.header f.name f.signature.descriptor) := by
      rw [hfk]
      exact entryOf?_header (not_mem_of_isWord hfword (by decide))
        (not_mem_of_isWord hfword (by decide))
    rw [List.flatMap_cons, Method.headers_lines hheader, ih hwords]
    rfl

/-- The module of a well-typed program, in which all names are words. -/
structure Generated (className : String) (t : Program) (m : Module) : Prop where
  typed : ProgramWellTyped t
  generate : Jvm.generate className t = .ok m
  classWord : IsWord (Byte.ofText className)
  words : ∀ e ∈ functionsOf t, IsWord (Byte.ofText e.1)

theorem generated_of_compileSource {className source text : String}
    (h : compileSource className source = .ok text) :
    ∃ t m, compileModule className source = .ok m ∧ m.text = text ∧ Generated className t m := by
  simp only [compileSource, bind_eq_ok, pure_eq_ok, checkClassName_eq_ok] at h
  obtain ⟨-, hclass, m, hm, htext⟩ := h
  obtain ⟨t, ht, hgenerate⟩ := bind_eq_ok.mp hm
  obtain ⟨ts, p, hts, hp, hcheck⟩ := checkedProgram_eq_ok.mp ht
  exact ⟨t, m, hm, htext, (checkProgram_wellTyped hcheck).1, mapError_eq_ok.mp hgenerate,
    isWord_of_isClassName hclass, fun e he => isWord_of_mem_functionsOf ht he⟩

namespace Generated

variable {className : String} {t : Program} {m : Module}

/-- The methods of a module are those of the functions, in order. -/
theorem methods (h : Generated className t m) :
    m.className = className ∧ ∃ calls, CallsFit calls (functionTypes t) (methodTypes className t) ∧
      List.Forall₂ (fun f k => f.WellTyped (functionTypes t) ∧ k.spec = f.spec ∧
        k.body.toList = f.instructions calls) t m.methods := by
  have hgenerate := h.generate
  simp only [Jvm.generate, bind_eq_ok, pure_eq_ok, methods_eq_mapM] at hgenerate
  obtain ⟨calls, hcalls, ks, hks, rfl⟩ := hgenerate
  have hfit := callsFit h.typed.names hcalls
  refine ⟨rfl, calls, hfit, ?_⟩
  refine ((List.forall₂_and_left _ _).mpr ⟨h.typed.functions, mapM_eq_ok.mp hks⟩).imp ?_
  rintro f k ⟨hf, hk⟩
  exact ⟨hf, (Function.method_grown hfit hf hk).spec, Function.method_body hfit hf hk⟩

theorem word_name (h : Generated className t m) {f : Function} (hf : f ∈ t) :
    IsWord (Byte.ofText f.name) :=
  h.words (f.name, f.signature) (List.mem_append_right _ (List.mem_map_of_mem hf))

/-- A call refers to a function that the program may call, and is counted with the words of its
signature. -/
theorem function_of_invoke (h : Generated className t m) {k : Method} (hk : k ∈ m.methods)
    {reference : String} {args result : Nat}
    (hi : .invoke reference args result ∈ k.body.toList) :
    ∃ e ∈ functionsOf t, reference = methodName className e.1 e.2 ∧ args = e.2.paramWords ∧
      result = e.2.ret.words := by
  obtain ⟨-, calls, hfit, hmethods⟩ := h.methods
  obtain ⟨f, -, hft, -, hbody⟩ := exists_of_forall₂ hmethods.flip k hk
  have hleads : Leads (methodTypes className t) (slotIn f.varTypes) [] [] (f.code calls) [] :=
    f.code_leads hfit hft
  -- the code has stack types throughout, and a call with other words has none
  rw [hbody] at hi
  obtain ⟨i, hi⟩ := List.mem_iff_getElem?.mp hi
  obtain ⟨takes, leaves, -, htyping, -⟩ :=
    Instruction.stackAfter_eq_some.mp (stackAfter_stackAt hleads.flow hi)
  simp only [Instruction.typing?] at htyping
  split at htyping
  · next s hs =>
    split at htyping
    · next hwords =>
      obtain ⟨e, hfind, rfl⟩ := Option.map_eq_some_iff.mp hs
      have hname : methodName className e.1 e.2 = reference := by
        simpa using List.find?_some hfind
      exact ⟨e, List.mem_of_find?_eq_some hfind, hname.symm, hwords⟩
    · cases htyping
  · cases htyping

/-- No name breaks a line. -/
theorem oneLine_lines (h : Generated className t m) : ∀ l ∈ m.lines, OneLine l := by
  have hword : ∀ {x : String}, IsWord (Byte.ofText x) → OneLine x :=
    fun hx => not_mem_of_isWord hx (by decide)
  have hdescriptor : ∀ s : Signature, OneLine s.descriptor :=
    fun s hs => absurd (descriptor_subset s hs) (by decide)
  obtain ⟨hname, calls, -, hmethods⟩ := h.methods
  refine List.forall_mem_append.mpr
    ⟨oneLine_supportLines (hname ▸ hword h.classWord), fun l hl => ?_⟩
  obtain ⟨k, hk, hl⟩ := List.mem_flatMap.mp hl
  obtain ⟨f, hf, -, hspec, -⟩ := exists_of_forall₂ hmethods.flip k hk
  rcases List.mem_cons.mp hl with rfl | hl
  · decide
  · refine Method.oneLine_lines ?_ ?_ l hl
    · rw [hspec]
      exact oneLine_append.mpr ⟨hword (h.word_name hf), hdescriptor _⟩
    · intro method args result hi
      obtain ⟨e, he, rfl, -⟩ := h.function_of_invoke hk hi
      simp only [methodName, oneLine_append]
      exact ⟨⟨⟨hword h.classWord, by decide⟩, hword (h.words e he)⟩, hdescriptor _⟩

/-- A module defines what starts the program, and a method for each function that the program may
call. -/
theorem headers_text (h : Generated className t m) : (headers m.text).Perm
    ([("<init>", "()V"), ("<clinit>", "()V"), ("main", "([Ljava/lang/String;)V")] ++
      (functionsOf t).map fun e => (e.1, e.2.descriptor)) := by
  obtain ⟨-, calls, -, hmethods⟩ := h.methods
  have hspecs := hmethods.imp fun _ _ hk => hk.2.1
  rw [headers, Module.entries_text h.oneLine_lines, List.filterMap_append, List.filterMap_flatMap,
    headers_methods hspecs fun f hf => h.word_name hf, functionsOf, List.map_append,
    List.map_map, ← List.append_assoc]
  exact (supportHeaders_perm m.className).append_right _

/-- A module calls the `main` of the program, and what the methods of its functions call. -/
theorem calls_text (h : Generated className t m) : Jvm.calls m.text = (className ++ "/main()V") ::
    m.methods.flatMap fun k => k.body.toList.filterMap Instruction.callee? := by
  obtain ⟨hname, -⟩ := h.methods
  rw [Jvm.calls, Module.entries_text h.oneLine_lines, List.filterMap_append,
    List.filterMap_flatMap, hname, List.flatMap_congr fun k _ => k.calls_lines]
  rfl

/-- The names of functions are words and differ, and the `main` of the program has no parameter. -/
theorem headers_nodup (h : Generated className t m) : (headers m.text).Nodup := by
  rw [h.headers_text.nodup_iff, List.nodup_append']
  refine ⟨by decide, ?_, ?_⟩
  · refine List.Nodup.of_map Prod.fst ?_
    rw [List.map_map]
    exact h.typed.names
  · intro header hstart hfunction
    obtain ⟨e, he, rfl⟩ := List.mem_map.mp hfunction
    have hangle : '<' ∉ e.1.toList := not_mem_of_isWord (h.words e he) (by decide)
    simp only [List.mem_cons, Prod.mk.injEq, List.not_mem_nil, or_false] at hstart
    rcases hstart with ⟨hinit, -⟩ | ⟨hclinit, -⟩ | ⟨hmain, hdescriptor⟩
    · exact hangle (hinit ▸ by decide)
    · exact hangle (hclinit ▸ by decide)
    · -- only the signature of the program's `main` keeps it apart from the one that is started
      have hsignature := (lookup_eq_some_iff_mem h.typed.names).mpr he
      rw [hmain] at hsignature
      have hvoid : e.2 = ⟨.void, []⟩ := Option.some.inj (hsignature.symm.trans h.typed.main)
      rw [hvoid] at hdescriptor
      exact absurd hdescriptor (by decide)

/-- Every function that the program may call has a line with its header. -/
theorem header_mem_lines (h : Generated className t m) {e : String × Signature}
    (he : e ∈ functionsOf t) :
    ".method public static " ++ (e.1 ++ e.2.descriptor) ∈ linesOf m.text := by
  rw [m.text_eq_endLines, linesOf_endLines h.oneLine_lines]
  refine List.mem_append_left _ ?_
  rcases List.mem_append.mp he with hbuiltin | huser
  · exact List.mem_append_left _ (header_mem_supportLines _ hbuiltin)
  · obtain ⟨-, calls, -, hmethods⟩ := h.methods
    obtain ⟨f, hf, rfl⟩ := List.mem_map.mp huser
    obtain ⟨k, hk, -, hspec, -⟩ := exists_of_forall₂ hmethods f hf
    refine List.mem_append_right _ (List.mem_flatMap.mpr ⟨k, hk, List.mem_cons_of_mem _ ?_⟩)
    have hline : ".method public static " ++ (f.name ++ f.signature.descriptor) =
        ".method public static " ++ k.spec := congrArg _ hspec.symm
    rw [hline]
    exact List.mem_cons_self

theorem count_header (h : Generated className t m) {e : String × Signature}
    (he : e ∈ functionsOf t) :
    (linesOf m.text).count (".method public static " ++ (e.1 ++ e.2.descriptor)) = 1 := by
  have hword := h.words e he
  exact count_line_of_nodup h.headers_nodup (h.header_mem_lines he)
    (entryOf?_header (not_mem_of_isWord hword (by decide)) (not_mem_of_isWord hword (by decide)))

/-- Whatever the text calls is a function that the program may call. -/
theorem function_of_mem_calls (h : Generated className t m) {reference : String}
    (href : reference ∈ Jvm.calls m.text) :
    ∃ e ∈ functionsOf t, reference = methodName className e.1 e.2 := by
  rw [h.calls_text] at href
  rcases List.mem_cons.mp href with rfl | href
  · refine ⟨("main", ⟨.void, []⟩), mem_of_lookup h.typed.main, ?_⟩
    have hmain : "/main()V" = "/" ++ "main" ++ (⟨.void, []⟩ : Signature).descriptor := by decide
    rw [methodName, hmain, String.append_assoc, String.append_assoc, String.append_assoc]
  · obtain ⟨k, hk, href⟩ := List.mem_flatMap.mp href
    obtain ⟨i, hi, hcallee⟩ := List.mem_filterMap.mp href
    cases i with
    | invoke method args result =>
      cases hcallee
      obtain ⟨e, he, heq, -⟩ := h.function_of_invoke hk hi
      exact ⟨e, he, heq⟩
    | _ => cases hcallee

end Generated

/-! ## References -/

/-- The reference names this method of the class, with these types of its parameters and its
result. It can be read in one way only: the name goes up to the first parenthesis, and the types of
the parameters to the next one that closes. -/
structure RefersTo (reference className name params ret : String) : Prop where
  spelled : reference = className ++ "/" ++ name ++ "(" ++ params ++ ")" ++ ret
  name_ends : '(' ∉ name.toList
  params_end : ')' ∉ params.toList

theorem refersTo_methodName (className : String) {e : String × Signature}
    (hword : IsWord (Byte.ofText e.1)) :
    RefersTo (methodName className e.1 e.2) className e.1
      (String.join (e.2.params.map Ty.descriptor)) e.2.ret.descriptor where
  spelled := by simp only [methodName, Signature.descriptor, String.append_assoc]
  name_ends := not_mem_of_isWord hword (by decide)
  params_end := by
    have hty : ∀ ty : Ty, ')' ∉ ty.descriptor.toList := by
      intro ty
      cases ty <;> decide
    rw [String.toList_join]
    intro hmem
    obtain ⟨d, hd, hmem⟩ := List.mem_flatMap.mp hmem
    obtain ⟨ty, -, rfl⟩ := List.mem_map.mp hd
    exact hty ty hmem

/-- The text of a module defines what it calls. -/
structure CallsResolve (className : String) (m : Module) : Prop where
  /-- No two headers have the same name and the same descriptor. -/
  distinct : (headers m.text).Nodup
  /-- The text calls the `main` of the program, and what the instructions call. -/
  calls : Jvm.calls m.text = (className ++ "/main()V") ::
    m.methods.flatMap fun k => k.body.toList.filterMap Instruction.callee?
  /-- Whatever is called has its header in the text, in one line. -/
  resolved : ∀ reference ∈ Jvm.calls m.text, ∃ name params ret,
    RefersTo reference className name params ret ∧
      (linesOf m.text).count
        (".method public static " ++ name ++ "(" ++ params ++ ")" ++ ret) = 1
  /-- A call is counted with the words of the types that its reference spells. -/
  counted : ∀ k ∈ m.methods, ∀ reference args result,
    .invoke reference args result ∈ k.body.toList → ∃ name params ret,
      RefersTo reference className name params ret ∧ args = spelledWords params ∧
        result = spelledWords ret

/-- Calls resolve in every module text that a compilation gives. -/
theorem compileSource_callsResolve {className source text : String}
    (h : compileSource className source = .ok text) :
    ∃ m, compileModule className source = .ok m ∧ m.text = text ∧ CallsResolve className m := by
  obtain ⟨t, m, hm, htext, hgen⟩ := generated_of_compileSource h
  refine ⟨m, hm, htext, hgen.headers_nodup, hgen.calls_text, ?_, ?_⟩
  · intro reference href
    obtain ⟨e, he, rfl⟩ := hgen.function_of_mem_calls href
    refine ⟨_, _, _, refersTo_methodName className (hgen.words e he), ?_⟩
    have hcount := hgen.count_header he
    simpa only [Signature.descriptor, String.append_assoc] using hcount
  · intro k hk reference args result hi
    obtain ⟨e, he, rfl, rfl, rfl⟩ := hgen.function_of_invoke hk hi
    exact ⟨_, _, _, refersTo_methodName className (hgen.words e he),
      (spelledWords_params e.2).symm, (spelledWords_ret e.2.ret).symm⟩

/-- `main` prints a header of its own, and calls itself. -/
def forging : String :=
  "void main()\x7bprintString(\"\\n.method public static main()V\");printDouble(1);main();\x7d"

def forgingTokens : List (Located Token) := [
  ⟨.type .void, ⟨1, 1⟩⟩, ⟨.ident "main", ⟨1, 6⟩⟩, ⟨.openParen, ⟨1, 10⟩⟩, ⟨.closeParen, ⟨1, 11⟩⟩,
  ⟨.openBrace, ⟨1, 12⟩⟩, ⟨.ident "printString", ⟨1, 13⟩⟩, ⟨.openParen, ⟨1, 24⟩⟩,
  ⟨.const (.string "\n.method public static main()V"), ⟨1, 25⟩⟩, ⟨.closeParen, ⟨1, 58⟩⟩,
  ⟨.semicolon, ⟨1, 59⟩⟩, ⟨.ident "printDouble", ⟨1, 60⟩⟩, ⟨.openParen, ⟨1, 71⟩⟩,
  ⟨.const (.int 1), ⟨1, 72⟩⟩, ⟨.closeParen, ⟨1, 73⟩⟩, ⟨.semicolon, ⟨1, 74⟩⟩,
  ⟨.ident "main", ⟨1, 75⟩⟩, ⟨.openParen, ⟨1, 79⟩⟩, ⟨.closeParen, ⟨1, 80⟩⟩, ⟨.semicolon, ⟨1, 81⟩⟩,
  ⟨.closeBrace, ⟨1, 82⟩⟩]

def forgingTree : Surface.Program := [{
  ret := .void
  name := ⟨"main", ⟨1, 6⟩⟩
  params := []
  body := [
    .expr (.call ⟨"printString", ⟨1, 13⟩⟩
      [.const ⟨.string "\n.method public static main()V", ⟨1, 25⟩⟩]),
    .expr (.call ⟨"printDouble", ⟨1, 60⟩⟩ [.const ⟨.int 1, ⟨1, 72⟩⟩]),
    .expr (.call ⟨"main", ⟨1, 75⟩⟩ [])] }]

def forgingCore : Program := [{
  name := "main"
  signature := ⟨.void, []⟩
  params := []
  body := [
    .expr (.call "printString" [.const (.string "\n.method public static main()V")] .void),
    .expr (.call "printDouble" [.cast .double (.const (.int 1))] .void),
    .expr (.call "main" [] .void)] }]

theorem compileSource_forging : ∃ text, compileSource "Main" forging = .ok text := by
  have hts : tokenize forging = .ok forgingTokens := by decide +kernel
  have hp : Surface.parse forgingTokens = .ok forgingTree := by cbv
  have hcheck : checkProgram forgingTree = .ok forgingCore := by rfl
  have hgen : ∃ m, Jvm.generate "Main" forgingCore = .ok m := ⟨_, rfl⟩
  obtain ⟨m, hm⟩ := hgen
  have hmodule : compileModule "Main" forging = .ok m :=
    bind_eq_ok.mpr ⟨_, checkedProgram_eq_ok.mpr ⟨_, _, hts, hp, hcheck⟩, mapError_eq_ok.mpr hm⟩
  have hclass : (checkClassName "Main").mapError Failure.error = .ok () :=
    checkClassName_eq_ok.mpr (by decide)
  exact ⟨m.text, bind_eq_ok.mpr ⟨(), hclass, bind_eq_ok.mpr ⟨m, hmodule, rfl⟩⟩⟩

theorem compileSource_callsResolve_forging :
    ∃ text, compileSource "Main" forging = .ok text ∧
      ∃ m, compileModule "Main" forging = .ok m ∧ m.text = text ∧ CallsResolve "Main" m := by
  obtain ⟨text, hcompile⟩ := compileSource_forging
  exact ⟨text, hcompile, compileSource_callsResolve hcompile⟩

end Compiler

end MiniC
