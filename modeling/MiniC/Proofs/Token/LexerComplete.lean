import MiniC.Proofs.Token.LexerSound

/-!
# Texts in any layout

Tokens may be written down with any layout between them. Wherever each lexeme is followed by a blank
or by the end of the text, every scanner stops exactly where its lexeme ends, and the lexer gives
back the tokens.
-/

namespace MiniC

open Byte

/-! ## Layout -/

namespace Layout

variable {gap rest body : List UInt8}

/-- Nothing follows but a blank. -/
def Apart (rest : List UInt8) : Prop := ∀ b ∈ rest.head?, isBlank b = true

/-- The bytes are layout whatever follows, so that a newline closes each comment that ends with its
line. -/
def Closed (gap : List UInt8) : Prop := ∀ rest, Gap gap rest

/-- Layout that may stand between two lexemes. -/
structure Separates (gap : List UInt8) : Prop where
  blank : ∃ b ∈ gap.head?, isBlank b = true
  closed : Closed gap

/-- A separating gap keeps what stands behind it apart from what stands in front. -/
theorem Separates.apart (h : Separates gap) (rest : List UInt8) : Apart (gap ++ rest) := by
  obtain ⟨b, hb, hblank⟩ := h.blank
  obtain ⟨gap, rfl⟩ := List.head?_eq_some_iff.mp hb
  rintro c ⟨⟩
  exact hblank

/-- Skipping stops where neither a blank nor a comment starts. -/
theorem skipFrom_of_not_starts {n : Nat} (h : ¬Starts rest) : skipFrom n .blank rest = .ok n := by
  cases rest with
  | nil => rw [skipFrom]
  | cons b rest =>
    rw [starts_cons, not_or, not_or] at h
    obtain ⟨hblank, hhash, hslash⟩ := h
    unfold skipFrom
    rw [if_neg hblank, if_neg hhash]
    split
    · next hb =>
      cases rest with
      | nil => rfl
      | cons c rest =>
        have hc : c ≠ ascii '/' ∧ c ≠ ascii '*' := by simpa [hb] using hslash
        simp only [if_neg hc.1, if_neg hc.2]
    · rfl

theorem skipFrom_blank {n : Nat} {b : UInt8} (hb : isBlank b = true) :
    skipFrom n .blank (b :: rest) = skipFrom (n + 1) .blank rest :=
  (skipFrom.eq_def _ _ _).trans (if_pos hb)

/-- The opener of a line comment is skipped as a whole. -/
theorem skipFrom_lineOpener {opener : List UInt8} (h : opener ∈ lineOpeners) (n : Nat) :
    skipFrom n .blank (opener ++ rest) = skipFrom (n + opener.length) .lineComment rest := by
  simp only [lineOpeners, List.mem_cons, List.not_mem_nil, or_false] at h
  rcases h with rfl | rfl
  · exact (skipFrom.eq_def _ _ _).trans rfl
  · exact (skipFrom.eq_def _ _ _).trans rfl

/-- The opener of a block comment is skipped as a whole, and its place is kept for the failure. -/
theorem skipFrom_blockOpener (n : Nat) :
    skipFrom n .blank (blockOpener ++ rest) =
      skipFrom (n + blockOpener.length) (.blockComment n) rest :=
  (skipFrom.eq_def _ _ _).trans rfl

/-- A comment that ends with its line is passed up to the newline, or to the end of the text. -/
theorem skipFrom_lineComment (hbody : Pos.newline ∉ body)
    (hend : ∀ b ∈ rest.head?, b = Pos.newline) :
    ∀ n, skipFrom n .lineComment (body ++ rest) = skipFrom (n + body.length) .blank rest := by
  induction body with
  | nil =>
    intro n
    cases rest with
    | nil => rw [List.nil_append, skipFrom, skipFrom]; rfl
    | cons b rest =>
      obtain rfl := hend b rfl
      rw [List.nil_append, skipFrom, if_pos rfl, skipFrom_blank rfl]
      rfl
  | cons b body ih =>
    intro n
    obtain ⟨hb, hbody⟩ := not_or.mp (List.mem_cons.not.mp hbody)
    rw [List.cons_append, skipFrom, if_neg (Ne.symm hb), ih hbody, List.length_cons, Nat.add_assoc,
      Nat.add_comm 1]

/-- Any other comment is passed up to the first place where it can be closed. -/
theorem skipFrom_blockComment {start : Nat} (hbody : ¬blockCloser <:+: body) :
    ∀ n, skipFrom n (.blockComment start) (body ++ (blockCloser ++ rest)) =
      skipFrom (n + (body.length + blockCloser.length)) .blank rest := by
  induction body with
  | nil => exact fun n => (skipFrom.eq_def _ _ _).trans rfl
  | cons b body ih =>
    intro n
    have hnext := ih (fun h => hbody (h.trans (List.infix_cons (List.infix_refl _)))) (n + 1)
    rw [Nat.add_assoc, Nat.add_comm 1] at hnext
    refine Eq.trans ?_ hnext
    by_cases hb : b = ascii '*'
    · -- the next byte closes nothing: it is in the body, or it is the star of the closer
      obtain ⟨c, more, hmore, hc⟩ :
          ∃ c more, body ++ (blockCloser ++ rest) = c :: more ∧ c ≠ ascii '/' := by
        cases body with
        | nil => exact ⟨ascii '*', _, rfl, by decide⟩
        | cons c body =>
          refine ⟨c, _, rfl, ?_⟩
          rintro rfl
          exact hbody (hb ▸ (List.prefix_append [ascii '*', ascii '/'] body).isInfix)
      rw [List.cons_append, hmore]
      exact (skipFrom.eq_def _ _ _).trans ((if_pos hb).trans (if_neg hc))
    · exact (skipFrom.eq_def _ _ _).trans (if_neg hb)

/-- Layout is passed, whatever follows it. -/
theorem skipFrom_gap (h : Gap gap rest) :
    ∀ n, skipFrom n .blank (gap ++ rest) = skipFrom (n + gap.length) .blank rest := by
  induction h with
  | nil => exact fun n => rfl
  | blank hb _ ih =>
    intro n
    rw [List.cons_append, skipFrom_blank hb, ih, List.length_cons, Nat.add_assoc, Nat.add_comm 1]
  | line hopener hbody hend _ ih =>
    intro n
    rw [List.append_assoc, List.append_assoc, skipFrom_lineOpener hopener,
      skipFrom_lineComment hbody hend, ih]
    simp only [List.length_append, Nat.add_assoc]
  | block hbody _ ih =>
    intro n
    simp only [List.append_assoc]
    rw [skipFrom_blockOpener, skipFrom_blockComment hbody, ih]
    simp only [List.length_append, Nat.add_assoc]

/-- Layout is skipped up to what is none. -/
theorem skip_complete (h : Gap gap rest) (hstop : ¬Starts rest) :
    skip (gap ++ rest) = .ok gap.length := by
  rw [skip, skipFrom_gap h, skipFrom_of_not_starts hstop, Nat.zero_add]

/-- A word is never taken for layout. -/
theorem not_starts_of_isWordPart {b : UInt8} (h : isWordPart b = true) : ¬Starts (b :: rest) := by
  rw [starts_cons]
  rintro (hb | rfl | ⟨rfl, -⟩)
  · simp only [isBlank, Bool.or_eq_true, decide_eq_true_eq] at hb
    rcases hb with (((rfl | rfl) | rfl) | rfl) | rfl <;> exact absurd h (by decide)
  · exact absurd h (by decide)
  · exact absurd h (by decide)

end Layout

open Layout (Apart)

/-! ## Words and punctuation -/

theorem Byte.not_isWordPart_of_isBlank {b : UInt8} (h : isBlank b = true) :
    isWordPart b = false := by
  simp only [isBlank, Bool.or_eq_true, decide_eq_true_eq] at h
  rcases h with (((rfl | rfl) | rfl) | rfl) | rfl <;> rfl

/-- A text of ASCII characters is given back by its bytes. -/
theorem Byte.toText_ofText {x : String} (h : ∀ b ∈ ofText x, b.toNat < 128) :
    toText (ofText x) = x := by
  have hbytes := ofText_toText h
  unfold ofText at hbytes
  rw [← String.toByteArray_inj, ByteArray.ext_iff, ← Array.toList_inj]
  exact hbytes

namespace Token

variable {b : UInt8} {more rest : List UInt8} {t : Token}

/-- The bytes `b :: more` are read as a lexeme of the token, in front of `rest`. -/
structure ReadAs (b : UInt8) (more rest : List UInt8) (t : Token) : Prop where
  lexeme : lexeme b (more ++ rest) = .ok ⟨t, more.length⟩
  noLayout : ¬Layout.Starts (b :: (more ++ rest))

/-- No punctuation of two bytes begins with a byte of a word. -/
theorem pair?_of_isWordPart {c : UInt8} (h : isWordPart b = true) : pair? b c = none := by
  rw [Option.eq_none_iff_forall_ne_some]
  intro t ht
  rw [(pair?_eq_some ht).2.2.1.1] at h
  cases h

theorem bind_pair?_of_isWordPart (h : isWordPart b = true) (bs : List UInt8) :
    bs.head?.bind (pair? b) = none := by
  cases bs with
  | nil => rfl
  | cons c bs => exact pair?_of_isWordPart h

/-- A word with something apart behind it is read as a whole, and as nothing longer. -/
theorem word_readAs (hword : IsWord (b :: more)) (hrest : Apart rest) :
    ReadAs b more rest (ofWord (toText (b :: more))) := by
  obtain ⟨_, _, ⟨⟩, hb, hmore⟩ := hword
  have hpart := isWordPart_of_isWordStart hb
  have hdigit : isDigit b = false := by
    rw [← Bool.not_eq_true]
    intro h
    rw [not_isWordStart_of_isDigit h] at hb
    cases hb
  have hquote : b ≠ ascii '"' := by
    rintro rfl
    exact absurd hb (by decide)
  have htake : (more ++ rest).takeWhile isWordPart = more := by
    rw [List.takeWhile_append_of_pos hmore]
    cases rest with
    | nil => simp
    | cons c rest => simp [not_isWordPart_of_isBlank (hrest c rfl)]
  refine ⟨?_, Layout.not_starts_of_isWordPart hpart⟩
  rw [Token.lexeme, bind_pair?_of_isWordPart hpart]
  simp only [hdigit, Bool.false_eq_true, if_false, if_neg hquote, if_pos hb, word, htake]

/-- A keyword is read back from its text. -/
theorem ofWord_text (ht : t.IsSymbol) (hword : IsWord (ofText t.text)) : ofWord t.text = t := by
  cases t with
  | const c => cases ht
  | ident x => cases ht
  | type ty => cases ty <;> rfl
  | kwIf | kwElse | kwWhile | kwFor | kwReturn => rfl
  | _ =>
    obtain ⟨b, more, heq, hb, -⟩ := hword
    cases heq
    exact absurd hb (by decide)

/-- Two bytes that make up one symbol are read as that symbol. -/
theorem pair_readAs {c : UInt8} (h : pair? b c = some t) : ReadAs b [c] rest t := by
  refine ⟨?_, ?_⟩
  · rw [Token.lexeme, List.cons_append, List.head?_cons, Option.bind_some, h]
    rfl
  · rw [List.cons_append, Layout.starts_cons, List.head?_cons]
    unfold pair? at h
    split at h
    case h_9 => cases h
    all_goals
      next hb hc =>
        rw [eq_ascii hb, eq_ascii hc]
        decide

theorem pair?_of_isBlank {c : UInt8} (h : isBlank c = true) : pair? b c = none := by
  unfold pair?
  split
  case h_9 => rfl
  all_goals
    next hc =>
      rw [eq_ascii hc] at h
      exact absurd h (by decide)

/-- Punctuation of one byte opens no comment. -/
theorem single?_not_starts (h : single? b = some t) (hrest : Apart rest) :
    ¬Layout.Starts (b :: rest) := by
  have hnext : ∀ c, isBlank c = false → rest.head? ≠ some c := by
    intro c hc hhead
    rw [hrest c hhead] at hc
    cases hc
  have hfirst : isBlank b = false ∧ b ≠ ascii '#' := by
    unfold single? at h
    split at h
    case h_15 => cases h
    all_goals
      next hb =>
        rw [eq_ascii hb]
        decide
  rw [Layout.starts_cons, hfirst.1]
  simp [hfirst.2, hnext (ascii '/') rfl, hnext (ascii '*') rfl]

/-- A byte that is a symbol is read as that symbol when nothing behind it makes a longer one. -/
theorem single_readAs (h : single? b = some t) (hrest : Apart rest) : ReadAs b [] rest t := by
  obtain ⟨-, -, hpart, hquote⟩ := single?_eq_some h
  have hpair : rest.head?.bind (pair? b) = none := by
    cases rest with
    | nil => rfl
    | cons c rest => exact pair?_of_isBlank (hrest c rfl)
  obtain ⟨hstart, hdigit⟩ := Bool.or_eq_false_iff.mp hpart
  refine ⟨?_, single?_not_starts h hrest⟩
  rw [Token.lexeme, List.nil_append, hpair]
  simp only [hdigit, hstart, Bool.false_eq_true, if_false, if_neg hquote, h, List.length_nil]

end Token

/-! ## Numerals -/

section Head

variable {p : UInt8 → Prop} {l rest : List UInt8}

theorem forall_mem_head?_append (hl : ∀ b ∈ l.head?, p b) (hrest : ∀ b ∈ rest.head?, p b) :
    ∀ b ∈ (l ++ rest).head?, p b := by
  cases l with
  | nil => exact hrest
  | cons c l => exact hl

/-- Something apart does not prolong a run of digits. -/
theorem Layout.Apart.not_isDigit (h : Apart rest) : ∀ b ∈ rest.head?, isDigit b = false :=
  fun b hb => (Bool.or_eq_false_iff.mp (not_isWordPart_of_isBlank (h b hb))).2

/-- Something apart begins with a blank or not at all, hence with no other byte. -/
theorem Layout.Apart.ne {c : UInt8} (h : Apart rest) (hc : isBlank c = false) :
    ∀ b ∈ rest.head?, b ≠ c := by
  rintro b hb rfl
  rw [h b hb] at hc
  cases hc

end Head

namespace Exponent

variable {x : Exponent} {rest : List UInt8}

/-- The sign of an exponent is found again in its spelling. -/
theorem WellFormed.sign? (h : x.WellFormed) (rest : List UInt8) :
    sign? (x.sign.toList ++ (x.digits ++ rest)) = x.sign := by
  obtain ⟨mark, sign, digits⟩ := x
  obtain ⟨-, hsign, hne, hdigits⟩ := h
  cases sign with
  | none =>
    obtain ⟨d, ds, rfl⟩ := List.exists_cons_of_ne_nil hne
    have hd : isDigit d = true := hdigits d (by simp)
    have hplus : d ≠ ascii '+' := by
      rintro rfl
      exact absurd hd (by decide)
    have hminus : d ≠ ascii '-' := by
      rintro rfl
      exact absurd hd (by decide)
    simp [Exponent.sign?, Option.filter, hplus, hminus]
  | some b =>
    have hb := hsign b rfl
    simp only [List.mem_cons, List.not_mem_nil, or_false] at hb
    rcases hb with rfl | rfl <;> rfl

/-- An exponent with something apart behind it is scanned as a whole. -/
theorem scan?_bytes (h : x.WellFormed) (hrest : Apart rest) : scan? (x.bytes ++ rest) = some x := by
  have hmark : (x.mark = ascii 'e' || x.mark = ascii 'E') = true := by simpa using h.mark
  have hne : x.digits.isEmpty = false := by simpa using h.digits.1
  rw [bytes, List.cons_append, List.append_assoc, scan?]
  simp only [h.sign? rest, List.drop_left, takeWhile_run h.digits.2 hrest.not_isDigit, hmark,
    hne, Bool.not_false, Bool.and_self, if_true]

theorem scan?_of_apart (hrest : Apart rest) : scan? rest = none := by
  cases rest with
  | nil => rfl
  | cons b rest =>
    have hsmall : b ≠ ascii 'e' := hrest.ne rfl b rfl
    have hlarge : b ≠ ascii 'E' := hrest.ne rfl b rfl
    simp [scan?, hsmall, hlarge]

end Exponent

namespace Numeral

variable {n : Numeral} {rest : List UInt8}

theorem scan_spelling (hn : n.WellFormed) (hrest : Apart rest) :
    scan n.first (n.tail ++ rest) = n := by
  have hexponent : ∀ b ∈ (n.exponentBytes ++ rest).head?, isDigit b = false ∧ b ≠ ascii '.' :=
    forall_mem_head?_append hn.exponentPart.head_not_digit fun b hb =>
      ⟨hrest.not_isDigit b hb, hrest.ne rfl b hb⟩
  have hpoint : ∀ b ∈ (fractionBytes n.fraction ++ (n.exponentBytes ++ rest)).head?,
      isDigit b = false :=
    forall_mem_head?_append hn.point.head_not_digit fun b hb => (hexponent b hb).1
  have hwhole : ∀ b ∈ n.whole, isDigit b = true := fun b hb => hn.whole b (by simp [hb])
  have hfraction : scanFraction (fractionBytes n.fraction ++ (n.exponentBytes ++ rest)) =
      n.fraction := by
    by_cases hne : n.fraction = []
    · rw [hne]
      exact scanFraction_of_head fun b hb => (hexponent b hb).2
    · rw [fractionBytes_of_ne_nil hne, List.cons_append, scanFraction]
      exact (if_pos rfl).trans (takeWhile_run hn.fraction fun b hb => (hexponent b hb).1)
  have hscan : Exponent.scan? (n.exponentBytes ++ rest) = n.exponent := by
    unfold exponentBytes
    cases hx : n.exponent with
    | none => exact Exponent.scan?_of_apart hrest
    | some x => exact Exponent.scan?_bytes (hn.exponent x hx) hrest
  rw [tail_eq, List.append_assoc, List.append_assoc, scan]
  simp only [takeWhile_run hwhole hpoint, List.drop_left, hfraction, hscan]

/-- What has the form of a numeral is one. -/
theorem exists_spelling {whole point exponent : List UInt8} (hwhole : IsDigits whole)
    (hpoint : PointPart point) (hexponent : ExponentPart exponent) :
    ∃ n : Numeral, n.WellFormed ∧ n.first :: n.whole = whole ∧ fractionBytes n.fraction = point ∧
      n.exponentBytes = exponent := by
  obtain ⟨d, ds, rfl⟩ := List.exists_cons_of_ne_nil hwhole.1
  obtain ⟨fraction, hfraction, rfl⟩ :
      ∃ fraction, (∀ b ∈ fraction, isDigit b = true) ∧ fractionBytes fraction = point := by
    cases hpoint with
    | absent => exact ⟨[], by simp, rfl⟩
    | digits hds => exact ⟨_, hds.2, fractionBytes_of_ne_nil hds.1⟩
  obtain ⟨x, hx, rfl⟩ : ∃ x : Option Exponent, (∀ e ∈ x, e.WellFormed) ∧
      (x.map Exponent.bytes).getD [] = exponent := by
    cases hexponent with
    | absent => exact ⟨none, by simp, rfl⟩
    | @digits mark sign ds hmark hsign hds =>
      obtain ⟨s, rfl, hs⟩ : ∃ s : Option UInt8, s.toList = sign ∧
          ∀ b ∈ s, b ∈ [ascii '+', ascii '-'] := by
        simp only [List.mem_cons, List.not_mem_nil, or_false] at hsign
        rcases hsign with rfl | rfl | rfl
        · exact ⟨none, rfl, by simp⟩
        · exact ⟨some _, rfl, by simp⟩
        · exact ⟨some _, rfl, by simp⟩
      refine ⟨some ⟨mark, s, ds⟩, ?_, rfl⟩
      rintro _ ⟨⟩
      exact ⟨hmark, hs, hds⟩
  exact ⟨⟨d, ds, fraction, x⟩, ⟨hwhole.2, hfraction, hx⟩, rfl, rfl, rfl⟩

/-- A numeral is an integer exactly when its spelling has neither a fraction nor an exponent. -/
theorem isInteger_iff :
    n.isInteger = true ↔ fractionBytes n.fraction = [] ∧ n.exponentBytes = [] := by
  rw [isInteger, Bool.and_eq_true, List.isEmpty_iff, Option.isNone_iff_eq_none]
  refine and_congr ⟨fun h => by rw [h]; rfl, fun h => ?_⟩ ⟨fun h => by rw [exponentBytes, h]; rfl,
    fun h => ?_⟩
  · by_contra hne
    rw [fractionBytes_of_ne_nil hne] at h
    cases h
  · cases hx : n.exponent with
    | none => rfl
    | some x =>
      rw [exponentBytes, hx] at h
      cases h

end Numeral

namespace Token

variable {b : UInt8} {more rest : List UInt8} {t : Token}

/-- In front of a blank, what a numeral is read as depends on the numeral only. -/
theorem number_of_apart {n : Numeral} (hn : n.WellFormed) (hrest : Apart rest) :
    number n.first (n.tail ++ rest) =
      if n.isInteger then
        if natOfDigits (n.first :: n.whole) ≤ Numeral.maxInteger then
          .ok ⟨const (.int (Int32.ofNat (natOfDigits (n.first :: n.whole)))), n.tail.length⟩
        else .error ⟨.integerOutOfRange, 0⟩
      else if n.toDouble.isFinite then .ok ⟨const (.double n.toDouble), n.tail.length⟩
      else .error ⟨.invalidNumber, 0⟩ := by
  have hnext : rest.head?.any isWordPart = false := by
    cases rest with
    | nil => rfl
    | cons c rest => exact not_isWordPart_of_isBlank (hrest c rfl)
  rw [number]
  simp only [Numeral.scan_spelling hn hrest, List.drop_left, hnext, Bool.false_eq_true, if_false]

theorem number_readAs {n : Numeral} (hn : n.WellFormed)
    (h : number n.first (n.tail ++ rest) = .ok ⟨t, n.tail.length⟩) :
    ReadAs n.first n.tail rest t := by
  have hdigit : isDigit n.first = true := hn.whole n.first (by simp)
  have hpart := isWordPart_of_isDigit hdigit
  refine ⟨?_, Layout.not_starts_of_isWordPart hpart⟩
  rw [Token.lexeme, bind_pair?_of_isWordPart hpart]
  simp only [hdigit, if_true, h]

/-- A literal is read up to the quote that closes it, whatever stands behind. -/
theorem literal_readAs {body : List UInt8} {s : String} (h : Decodes body (ofText s)) :
    ReadAs (ascii '"') (body ++ [ascii '"']) rest (.const (.string s)) := by
  have hpair : ∀ bs : List UInt8, bs.head?.bind (pair? (ascii '"')) = none := by
    intro bs
    cases bs with
    | nil => rfl
    | cons c bs => rfl
  refine ⟨?_, ?_⟩
  · rw [Token.lexeme, hpair, List.append_assoc, List.singleton_append]
    simp only [stringLiteral, StringLiteral.scan_complete h, fromUTF8?_ofText, List.length_append]
    rfl
  · rw [Layout.starts_cons]
    rintro (hstart | hstart | ⟨hstart, -⟩) <;> exact absurd hstart (by decide)

/-- A lexeme in front of a blank is read as its token. -/
theorem Denotes.readAs {l : List UInt8} (h : Denotes l t) (hrest : Apart rest) :
    ∃ b more, l = b :: more ∧ ReadAs b more rest t := by
  have hwords : ∀ {x : String}, IsWord (ofText x) → ofWord x = t →
      ∃ b more, ofText x = b :: more ∧ ReadAs b more rest t := by
    intro x hword ht
    have htext : toText (ofText x) = x :=
      toText_ofText fun b hb => toNat_lt_of_isWordPart (hword.isWordPart b hb)
    obtain ⟨b, more, heq, -⟩ := id hword
    rw [heq] at hword htext
    refine ⟨b, more, heq, ?_⟩
    have hread := word_readAs hword hrest
    rwa [htext, ht] at hread
  cases h with
  | symbol ht =>
    rcases ht.spelling with hword | ⟨a, heq, hsingle⟩ | ⟨a, b, heq, hpair⟩
    · exact hwords hword (ofWord_text ht hword)
    · exact ⟨a, [], heq, single_readAs hsingle hrest⟩
    · exact ⟨a, [b], heq, pair_readAs hpair⟩
  | @truth v =>
    cases v with
    | true => exact hwords (isWord_of_all rfl (by decide) (by decide)) rfl
    | false => exact hwords (isWord_of_all rfl (by decide) (by decide)) rfl
  | ident hword hreserved => exact hwords hword (ofWord_of_not_reserved hreserved)
  | @int ds i hds hle hi =>
    obtain ⟨n, hn, rfl, hpoint, hexponent⟩ := Numeral.exists_spelling hds .absent .absent
    have hint : n.isInteger = true := Numeral.isInteger_iff.mpr ⟨hpoint, hexponent⟩
    have hvalue : Int32.ofNat (decimalValue (n.first :: n.whole)) = i := by
      rw [← Int32.toInt_inj, hi]
      exact Int32.toInt_ofNat_of_lt (Nat.lt_succ_of_le hle)
    refine ⟨n.first, n.tail, by rw [Numeral.tail_of_isInteger hint], number_readAs hn ?_⟩
    rw [number_of_apart hn hrest, if_pos hint, natOfDigits_eq, hvalue]
    exact if_pos hle
  | @double whole point exponent d hwhole hpoint hexponent hne hd hfinite =>
    obtain ⟨n, hn, rfl, rfl, rfl⟩ := Numeral.exists_spelling hwhole hpoint hexponent
    have hint : ¬n.isInteger = true := by
      rw [Numeral.isInteger_iff, not_and_or]
      exact hne
    have hspelling : n.first :: n.whole ++ Numeral.fractionBytes n.fraction ++ n.exponentBytes =
        n.first :: n.tail := rfl
    rw [hspelling] at hd ⊢
    obtain rfl := Option.some.inj ((Numeral.ofString?_spelling hn).symm.trans hd)
    refine ⟨n.first, n.tail, rfl, number_readAs hn ?_⟩
    rw [number_of_apart hn hrest, if_neg hint, if_pos hfinite]
  | string hbody => exact ⟨_, _, rfl, literal_readAs hbody⟩

/-! ## The whole text -/

/-- A lexeme of a token, and the layout in front of it. -/
structure Placed where
  gap : String
  lexeme : String
  token : Token

/-- The text of lexemes, with layout behind the last one. -/
def written (parts : List Placed) (after : String) : String :=
  String.join (parts.map fun p => p.gap ++ p.lexeme) ++ after

/-- The text consists of lexemes and layout, and no two lexemes touch. Behind the last one, a
comment may run up to the end of the text. -/
structure LaidOut (parts : List Placed) (after : String) : Prop where
  lexemes : ∀ p ∈ parts, Denotes (ofText p.lexeme) p.token
  first : ∀ p ∈ parts.head?, Layout.Closed (ofText p.gap)
  between : ∀ p ∈ parts.tail, Layout.Separates (ofText p.gap)
  last : Layout.Gap (ofText after) []
  apart : parts ≠ [] → Apart (ofText after)

section Written

variable {p : Placed} {parts : List Placed} {after : String}

theorem ofText_written_cons :
    ofText (written (p :: parts) after) =
      ofText p.gap ++ (ofText p.lexeme ++ ofText (written parts after)) := by
  simp only [written, ofText, List.map_cons, String.join_cons, String.toByteArray_append,
    ByteArray.data_append, Array.toList_append, List.append_assoc]

/-- What remains after the first part is laid out as well. -/
theorem LaidOut.tail (h : LaidOut (p :: parts) after) : LaidOut parts after where
  lexemes := fun q hq => h.lexemes q (List.mem_cons_of_mem _ hq)
  first := fun q hq => (h.between q (List.mem_of_mem_head? hq)).closed
  between := fun q hq => h.between q (List.mem_of_mem_tail hq)
  last := h.last
  apart := fun _ => h.apart (List.cons_ne_nil _ _)

/-- Behind a lexeme there is a blank or nothing. -/
theorem LaidOut.apart_written (h : LaidOut (p :: parts) after) :
    Apart (ofText (written parts after)) := by
  cases parts with
  | nil =>
    have hempty : written [] after = after := String.empty_append
    rw [hempty]
    exact h.apart (List.cons_ne_nil _ _)
  | cons q parts =>
    rw [ofText_written_cons]
    exact (h.between q (List.mem_cons_self ..)).apart _

end Written

section Steps

variable {c : Cursor} {n : Nat}

/-- A comment left open ends the run at the place the comment began. -/
theorem tokensFrom_unclosed (h : Layout.skip c.rest = .error n) :
    tokensFrom c = .error ⟨.unterminatedComment, (c.advance n).pos⟩ := by
  rw [tokensFrom, h]

/-- Layout up to the end leaves no more tokens. -/
theorem tokensFrom_end (h : Layout.skip c.rest = .ok n) (hend : (c.advance n).rest = []) :
    tokensFrom c = .ok [] := by
  rw [tokensFrom, h]
  dsimp only
  split
  · rfl
  · next hrest =>
    rw [hend] at hrest
    cases hrest

/-- Behind the layout, one lexeme is read and the run goes on behind it. -/
theorem tokensFrom_lexeme (h : Layout.skip c.rest = .ok n)
    (hrest : (c.advance n).rest = b :: rest) :
    tokensFrom c =
      match lexeme b rest with
      | .error e => .error ⟨e.problem, ((c.advance n).advance e.offset).pos⟩
      | .ok l => do
        let tokens ← tokensFrom ((c.advance n).advance (l.behind + 1))
        return ⟨l.token, (c.advance n).pos⟩ :: tokens := by
  rw [tokensFrom, h]
  dsimp only
  split
  · next hend =>
    rw [hrest] at hend
    cases hend
  · next hnext =>
    rw [hrest] at hnext
    obtain ⟨rfl, rfl⟩ := List.cons.inj hnext
    rfl

end Steps

theorem tokensFrom_done {c : Cursor} (h : Layout.Gap c.rest []) : tokensFrom c = .ok [] := by
  have hskip := Layout.skip_complete h Layout.not_starts_nil
  rw [List.append_nil] at hskip
  exact tokensFrom_end hskip (by rw [Cursor.advance_eq, List.drop_length])

/-- One lexeme with the layout in front of it. -/
theorem tokensFrom_readAs {c : Cursor} {gap : List UInt8}
    (hrest : c.rest = gap ++ (b :: (more ++ rest))) (hgap : Layout.Gap gap (b :: (more ++ rest)))
    (hread : ReadAs b more rest t) :
    tokensFrom c = do
      let tokens ← tokensFrom ⟨rest, (c.pos.afterAll gap).afterAll (b :: more)⟩
      return ⟨t, c.pos.afterAll gap⟩ :: tokens := by
  have hskip := Layout.skip_complete hgap hread.noLayout
  rw [← hrest] at hskip
  have hstart : c.advance gap.length = ⟨b :: (more ++ rest), c.pos.afterAll gap⟩ := by
    rw [Cursor.advance_eq, hrest, List.drop_left, List.take_left]
  have hadvance := Cursor.advance_append (b :: more) rest (c.pos.afterAll gap)
  rw [List.length_cons, List.cons_append] at hadvance
  rw [tokensFrom_lexeme hskip (congrArg Cursor.rest hstart), hstart, hread.lexeme]
  simp only [hadvance]

/-- The parts of a well laid out text are read one after the other, by induction on them. -/
theorem tokensFrom_written {after : String} :
    ∀ {parts : List Placed} {c : Cursor}, LaidOut parts after →
      c.rest = ofText (written parts after) →
      ∃ ts, tokensFrom c = .ok ts ∧ ts.map Located.value = parts.map Placed.token := by
  intro parts
  induction parts with
  | nil =>
    intro c h hrest
    have hempty : written [] after = after := String.empty_append
    rw [hempty] at hrest
    exact ⟨[], tokensFrom_done (hrest ▸ h.last), rfl⟩
  | cons p parts ih =>
    intro c h hrest
    obtain ⟨b, more, hlexeme, hread⟩ :=
      (h.lexemes p (List.mem_cons_self ..)).readAs h.apart_written
    rw [ofText_written_cons, hlexeme, List.cons_append] at hrest
    have hstep := tokensFrom_readAs hrest (h.first p rfl _) hread
    obtain ⟨ts, hts, hvalues⟩ := ih (c := ⟨ofText (written parts after),
      (c.pos.afterAll (ofText p.gap)).afterAll (b :: more)⟩) h.tail rfl
    refine ⟨⟨p.token, c.pos.afterAll (ofText p.gap)⟩ :: ts, ?_,
      by rw [List.map_cons, List.map_cons, hvalues]⟩
    rw [hstep, hts]
    rfl

end Token

/-- Whatever layout separates lexemes, they are read back as their tokens. -/
theorem tokenize_written {parts : List Token.Placed} {after : String}
    (h : Token.LaidOut parts after) :
    ∃ ts, tokenize (Token.written parts after) = .ok ts ∧
      ts.map Located.value = parts.map Token.Placed.token :=
  Token.tokensFrom_written h rfl

/-- A quotient, among comments and a string that contain what opens and closes the others. -/
def entangled : List Token.Placed := [
  ⟨"#/*\n", "x1", .ident "x1"⟩,
  ⟨" /*\"**/", "/", .slash⟩,
  ⟨"\t//*/\n", "\"//\\\"\"", .const (.string "//\"")⟩,
  ⟨"\n", "007", .const (.int 7)⟩]

theorem entangled_laidOut : Token.LaidOut entangled " // end" where
  lexemes := by
    have hstring : Decodes (ofText "//\\\"") (ofText "//\"") :=
      .plain (by decide) (by decide) (by decide) (.plain (by decide) (by decide) (by decide)
        (.escape (by decide) .nil))
    have hint : Token.Denotes (ofText "007") (.const (.int 7)) :=
      .int ⟨by decide, List.all_eq_true.mp (by decide)⟩ (by decide) (by decide)
    have hident : Token.Denotes (ofText "x1") (.ident "x1") :=
      .ident (isWord_of_all rfl (by decide) (by decide)) (by decide)
    intro p hp
    simp only [entangled, List.mem_cons, List.not_mem_nil, or_false] at hp
    rcases hp with rfl | rfl | rfl | rfl
    · exact hident
    · exact @Token.Denotes.symbol .slash trivial
    · exact .string hstring
    · exact hint
  first := by
    rintro p ⟨⟩ rest
    exact @Layout.Gap.line [ascii '#'] (ofText "/*") [Pos.newline] rest (by decide) (by decide)
      (by simp) (.blank rfl .nil)
  between := by
    intro p hp
    simp only [entangled, List.tail_cons, List.mem_cons, List.not_mem_nil, or_false] at hp
    rcases hp with rfl | rfl | rfl
    · exact ⟨⟨_, rfl, rfl⟩, fun rest => .blank rfl
        (@Layout.Gap.block (ofText "\"*") [] rest (by decide) .nil)⟩
    · exact ⟨⟨_, rfl, rfl⟩, fun rest => .blank rfl
        (@Layout.Gap.line [ascii '/', ascii '/'] (ofText "*/") [Pos.newline] rest (by decide)
          (by decide) (by simp) (.blank rfl .nil))⟩
    · exact ⟨⟨_, rfl, rfl⟩, fun rest => .blank rfl .nil⟩
  last := .blank rfl (@Layout.Gap.line [ascii '/', ascii '/'] (ofText " end") [] [] (by decide)
    (by decide) (by simp) .nil)
  apart := by
    rintro - b ⟨⟩
    rfl

theorem tokenize_written_entangled :
    Token.LaidOut entangled " // end" ∧
      ∃ ts, tokenize "#/*\nx1 /*\"**//\t//*/\n\"//\\\"\"\n007 // end" = .ok ts ∧
        ts.map Located.value =
          [.ident "x1", .slash, .const (.string "//\""), .const (.int 7)] :=
  ⟨entangled_laidOut, tokenize_written entangled_laidOut⟩

end MiniC
