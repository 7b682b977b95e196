import MiniC.Proofs.Token.LexerComplete

/-!
# Reading a text line by line

A newline ends every lexeme and every comment that runs to the end of its line, just as the end of
the text does, and nothing that is still open behind it can have been opened before it: a text that
is read to its end leaves no string literal and no block comment open. So a text may be cut at a
line break, and its two parts may be read apart; the second part only stands further down.
-/

namespace MiniC

open Byte

/-! ## Further down -/

section Down

variable {α : Type} (k : Nat)

/-- The position `k` lines further down. -/
def Pos.down (p : Pos) : Pos := ⟨p.line + k, p.column⟩

/-- The same thing, `k` lines further down. -/
def Located.down (x : Located α) : Located α := ⟨x.value, x.pos.down k⟩

/-- What the lexer says about a text that stands `k` lines further down. -/
def lexedDown : Except LexError (List (Located Token)) → Except LexError (List (Located Token))
  | .ok ts => .ok (ts.map (Located.down k))
  | .error e => .error (e.down k)

theorem Pos.down_after (p : Pos) (b : UInt8) : (p.down k).after b = (p.after b).down k := by
  unfold Pos.after Pos.down
  split
  · simp only [Nat.add_right_comm]
  · rfl

theorem Pos.down_afterAll (bs : List UInt8) :
    ∀ p : Pos, (p.down k).afterAll bs = (p.afterAll bs).down k := by
  induction bs with
  | nil => exact fun _ => rfl
  | cons b bs ih =>
    intro p
    rw [afterAll_cons, afterAll_cons, down_after, ih]

/-- The cursor over the same bytes, `k` lines further down. -/
def Cursor.down (c : Cursor) : Cursor := ⟨c.rest, c.pos.down k⟩

theorem Cursor.down_advance (c : Cursor) (n : Nat) :
    (c.down k).advance n = (c.advance n).down k := by
  simp only [Cursor.advance_eq, Cursor.down, Pos.down_afterAll]

end Down

namespace Token

/-- What is read does not depend on the line where it stands. -/
theorem tokensFrom_down (k : Nat) (c : Cursor) :
    tokensFrom (c.down k) = lexedDown k (tokensFrom c) := by
  fun_induction tokensFrom c with
  | case1 c n hskip =>
    rw [tokensFrom_unclosed (c := c.down k) hskip, c.down_advance]
    rfl
  | case2 c n hskip start =>
    rename_i hend
    exact tokensFrom_end hskip (by rw [c.down_advance]; exact hend)
  | case3 c n hskip start b rest hrest e he =>
    rw [tokensFrom_lexeme (c := c.down k) hskip (by rw [c.down_advance]; exact hrest), he]
    simp only [Cursor.down_advance]
    rfl
  | case4 c n hskip start b rest hrest l hl ih =>
    rw [tokensFrom_lexeme (c := c.down k) hskip (by rw [c.down_advance]; exact hrest), hl]
    have hnext : tokensFrom (((c.advance n).advance (l.behind + 1)).down k) =
        lexedDown k (tokensFrom (start.advance (l.behind + 1))) := ih
    simp only [Cursor.down_advance, hnext]
    cases tokensFrom (start.advance (l.behind + 1)) with
    | error e => rfl
    | ok ts => rfl

end Token

/-! ## Layout in front of a line break -/

namespace Layout

variable {gap rest bs : List UInt8}

/-- Layout stays layout when more text follows what stands behind it. -/
theorem Gap.append (h : Gap gap rest) (hne : rest ≠ []) (bs : List UInt8) :
    Gap gap (rest ++ bs) := by
  induction h with
  | nil => exact .nil
  | blank hb _ ih => exact .blank hb (ih hne)
  | @line opener body gap rest hopener hbody hend _ ih =>
    refine .line hopener hbody ?_ (ih hne)
    rw [← List.append_assoc,
      List.head?_append_of_ne_nil _ (List.append_ne_nil_of_right_ne_nil _ hne)]
    exact hend
  | block hbody _ ih => exact .block hbody (ih hne)

/-- A newline closes the comment that the end of a text has closed. -/
theorem Gap.newline {tail : List UInt8} (h : Gap gap tail) (htail : tail = []) (rest : List UInt8) :
    Gap (gap ++ [Pos.newline]) rest := by
  induction h with
  | nil => exact .blank rfl .nil
  | blank hb _ ih => exact .blank hb (ih htail)
  | @line opener body gap tail hopener hbody hend _ ih =>
    subst htail
    rw [List.append_assoc]
    refine .line hopener hbody ?_ (ih rfl)
    cases gap with
    | nil => simp
    | cons b gap => simpa using hend
  | block hbody _ ih =>
    rw [List.append_assoc]
    exact .block hbody (ih htail)

/-! Layout is measured from where it starts. -/

/-- The same measurement, with `k` more bytes in front. -/
def shifted (k : Nat) : Except Nat Nat → Except Nat Nat
  | .ok n => .ok (n + k)
  | .error n => .error (n + k)

/-- The same mode, with `k` more bytes in front. -/
def Mode.shifted (k : Nat) : Mode → Mode
  | .blank => .blank
  | .lineComment => .lineComment
  | .blockComment start => .blockComment (start + k)

theorem skipFrom_shifted (k n : Nat) (mode : Mode) (bs : List UInt8) :
    skipFrom (n + k) (mode.shifted k) bs = shifted k (skipFrom n mode bs) := by
  fun_induction skipFrom n mode bs with
  | case1 n => exact skipFrom.eq_def _ _ _
  | case2 n b rest hb ih =>
    rw [← ih, Nat.add_right_comm]
    exact skipFrom_blank hb
  | case3 n rest hb ih =>
    rw [← ih, Nat.add_right_comm]
    exact skipFrom.eq_def _ _ _
  | case4 n hb hhash => exact skipFrom.eq_def _ _ _
  | case5 n rest hb hhash ih =>
    rw [← ih, Nat.add_right_comm]
    exact skipFrom.eq_def _ _ _
  | case6 n rest hb hhash hne ih =>
    rw [← ih, Nat.add_right_comm]
    exact skipFrom.eq_def _ _ _
  | case7 n c rest hslash hstar hb hhash =>
    exact skipFrom_of_not_starts (by simp [starts_cons, hb, hhash, hslash, hstar])
  | case8 n b rest hb hhash hslash =>
    exact skipFrom_of_not_starts (by simp [starts_cons, hb, hhash, hslash])
  | case9 n => exact skipFrom.eq_def _ _ _
  | case10 n b rest ih =>
    have hmode : (if b = Pos.newline then Mode.blank else Mode.lineComment).shifted k =
        if b = Pos.newline then Mode.blank else Mode.lineComment := by
      split <;> rfl
    rw [← ih, hmode, Nat.add_right_comm]
    exact skipFrom.eq_def _ _ _
  | case11 n start => exact skipFrom.eq_def _ _ _
  | case12 n start => exact skipFrom.eq_def _ _ _
  | case13 n start rest ih =>
    rw [← ih, Nat.add_right_comm]
    exact skipFrom.eq_def _ _ _
  | case14 n start c rest hslash ih =>
    rw [← ih, Nat.add_right_comm]
    exact (skipFrom.eq_def _ _ _).trans (if_neg hslash)
  | case15 n start b rest hstar ih =>
    rw [← ih, Nat.add_right_comm]
    exact (skipFrom.eq_def _ _ _).trans (if_neg hstar)

/-- The layout in front of some bytes is measured together with theirs. -/
theorem skip_gap (h : Gap gap bs) : skip (gap ++ bs) = shifted gap.length (skip bs) := by
  rw [skip, skipFrom_gap h, skip]
  exact skipFrom_shifted gap.length 0 .blank bs

/-- A line break behind the end of some bytes opens nothing. -/
theorem not_starts_append_newline {b : UInt8} (h : ¬Starts (b :: rest)) (bs : List UInt8) :
    ¬Starts (b :: (rest ++ Pos.newline :: bs)) := by
  rw [starts_cons] at h ⊢
  cases rest with
  | nil =>
    rintro (hb | hb | ⟨-, hnext | hnext⟩)
    · exact h (.inl hb)
    · exact h (.inr (.inl hb))
    · cases hnext
    · cases hnext
  | cons c rest => exact h

end Layout

/-! ## Lexemes in front of a line break

A scanner that stops at a newline stops at the end of the text as well. -/

section Scanners

variable {rest : List UInt8} (bs : List UInt8)

theorem takeWhile_append_newline {p : UInt8 → Bool} (hp : p Pos.newline = false) :
    (rest ++ Pos.newline :: bs).takeWhile p = rest.takeWhile p := by
  induction rest with
  | nil => simp [hp]
  | cons b rest ih => simp [List.takeWhile_cons, ih]

theorem Exponent.sign?_append_newline : sign? (rest ++ Pos.newline :: bs) = sign? rest := by
  cases rest with
  | nil => rfl
  | cons b rest => rfl

theorem Exponent.scan?_append_newline : scan? (rest ++ Pos.newline :: bs) = scan? rest := by
  cases rest with
  | nil => rfl
  | cons mark rest =>
    have hsign : (sign? rest).toList.length ≤ rest.length := by
      have hsplit := congrArg List.length (sign?_append rest)
      rw [List.length_append] at hsplit
      omega
    simp only [List.cons_append, scan?, sign?_append_newline, List.drop_append_of_le_length hsign,
      takeWhile_append_newline bs (show isDigit Pos.newline = false from rfl)]

theorem Numeral.scanFraction_append_newline :
    scanFraction (rest ++ Pos.newline :: bs) = scanFraction rest := by
  cases rest with
  | nil => rfl
  | cons b rest =>
    rw [scanFraction, List.cons_append, List.tail_cons,
      takeWhile_append_newline bs (show isDigit Pos.newline = false from rfl)]
    rfl

theorem Numeral.scan_append_newline (b : UInt8) :
    scan b (rest ++ Pos.newline :: bs) = scan b rest := by
  have hwhole := (List.takeWhile_prefix isDigit (l := rest)).length_le
  have hfraction := (scanFraction_isPrefix (rest.drop (rest.takeWhile isDigit).length)).length_le
  simp only [scan, takeWhile_append_newline bs (show isDigit Pos.newline = false from rfl),
    List.drop_append_of_le_length hwhole, scanFraction_append_newline,
    List.drop_append_of_le_length hfraction, Exponent.scan?_append_newline]

namespace Token

variable {b : UInt8} {l : Lexeme}

theorem number_append_newline (b : UInt8) :
    number b (rest ++ Pos.newline :: bs) = number b rest := by
  have hnext : ∀ r : List UInt8, (r ++ Pos.newline :: bs).head?.any isWordPart =
      r.head?.any isWordPart := by
    intro r
    cases r with
    | nil => rfl
    | cons c r => rfl
  have htail := (Numeral.scan_isPrefix b rest).length_le
  simp only [number, Numeral.scan_append_newline, List.drop_append_of_le_length htail, hnext]

theorem stringLiteral_append (h : stringLiteral rest = .ok l) (bs : List UInt8) :
    stringLiteral (rest ++ bs) = .ok l := by
  unfold stringLiteral at h
  split at h
  · next content n hscan =>
    obtain ⟨body, behind, rfl, rfl, hbody⟩ := StringLiteral.scan_sound hscan
    rw [List.append_assoc, List.cons_append]
    simp only [stringLiteral, StringLiteral.scan_complete hbody]
    exact h
  · cases h
  · cases h

theorem word_append_newline (b : UInt8) :
    word b (rest ++ Pos.newline :: bs) = word b rest := by
  simp only [word, takeWhile_append_newline bs (show isWordPart Pos.newline = false from rfl)]

/-- A lexeme ends before a line break behind the text. -/
theorem lexeme_append_newline (h : lexeme b rest = .ok l) :
    lexeme b (rest ++ Pos.newline :: bs) = .ok l := by
  have hpair : (rest ++ Pos.newline :: bs).head?.bind (pair? b) = rest.head?.bind (pair? b) := by
    cases rest with
    | nil => exact pair?_of_isBlank rfl
    | cons c rest => rfl
  unfold lexeme at h ⊢
  rw [hpair]
  split at h
  · exact h
  · rw [number_append_newline, word_append_newline]
    split at h
    · next hdigit => rw [if_pos hdigit]; exact h
    next hdigit =>
    rw [if_neg hdigit]
    split at h
    · next hquote => rw [if_pos hquote]; exact stringLiteral_append h _
    next hquote =>
    rw [if_neg hquote]
    split at h
    · next hword => rw [if_pos hword]; exact h
    next hword =>
    rw [if_neg hword]
    split at h
    · next ht => exact h
    · cases h

end Token

end Scanners

/-! ## The text behind a line break -/

namespace Cursor

variable {c : Cursor} {n : Nat}

/-- The cursor over a text that goes on with `bs`. -/
def followedBy (c : Cursor) (bs : List UInt8) : Cursor := ⟨c.rest ++ bs, c.pos⟩

/-- The cursor at the end of its text. -/
def atEnd (c : Cursor) : Pos := c.pos.afterAll c.rest

theorem followedBy_advance (h : n ≤ c.rest.length) (bs : List UInt8) :
    (c.followedBy bs).advance n = (c.advance n).followedBy bs := by
  simp only [advance_eq, followedBy, List.drop_append_of_le_length h,
    List.take_append_of_le_length h]

theorem atEnd_advance (c : Cursor) (n : Nat) : (c.advance n).atEnd = c.atEnd := by
  rw [atEnd, advance_eq, ← Pos.afterAll_append, List.take_append_drop, atEnd]

end Cursor

namespace Token

/-- Layout in front of a text is passed. -/
theorem tokensFrom_gap {gap bs : List UInt8} (h : Layout.Gap gap bs) (p : Pos) :
    tokensFrom ⟨gap ++ bs, p⟩ = tokensFrom ⟨bs, p.afterAll gap⟩ := by
  have hadvance : ∀ n, Cursor.advance ⟨gap ++ bs, p⟩ (n + gap.length) =
      Cursor.advance ⟨bs, p.afterAll gap⟩ n := by
    intro n
    simp only [Cursor.advance_eq, Nat.add_comm n, List.drop_length_add_append,
      List.take_length_add_append, Pos.afterAll_append]
  have hskip := Layout.skip_gap h
  cases hbs : Layout.skip bs with
  | error n =>
    rw [hbs] at hskip
    rw [tokensFrom_unclosed (c := ⟨gap ++ bs, p⟩) hskip, tokensFrom_unclosed hbs, hadvance]
  | ok n =>
    rw [hbs] at hskip
    cases hrest : (Cursor.advance ⟨bs, p.afterAll gap⟩ n).rest with
    | nil =>
      rw [tokensFrom_end (c := ⟨gap ++ bs, p⟩) hskip (by rw [hadvance, hrest]),
        tokensFrom_end hbs hrest]
    | cons b rest =>
      rw [tokensFrom_lexeme (c := ⟨gap ++ bs, p⟩) hskip (by rw [hadvance, hrest]),
        tokensFrom_lexeme hbs hrest, hadvance]

/-- A text that is read to its end may be followed by a line break and more text, which is read on
its own. -/
theorem tokensFrom_append_newline (bs : List UInt8) {c : Cursor} {ts : List (Located Token)}
    (h : tokensFrom c = .ok ts) :
    tokensFrom (c.followedBy (Pos.newline :: bs)) =
      (tokensFrom ⟨bs, c.atEnd.after Pos.newline⟩).map (ts ++ ·) := by
  fun_induction tokensFrom c generalizing ts with
  | case1 => cases h
  | case2 c n hskip start =>
    rename_i hend
    cases h
    obtain ⟨gap, rest, hrest, rfl, hgap, -⟩ := Layout.skip_sound hskip
    obtain ⟨_, p⟩ := c
    obtain rfl : _ = gap ++ rest := hrest
    obtain rfl : rest = [] := by
      rwa [show start = _ from Cursor.advance_append gap rest p] at hend
    have hline := tokensFrom_gap (hgap.newline rfl bs) p
    rw [List.append_assoc, List.singleton_append, Pos.afterAll_append] at hline
    rw [Cursor.followedBy, Cursor.atEnd, List.append_nil, hline]
    exact (congrFun Except.map_id _).symm
  | case3 => cases h
  | case4 c n hskip start b rest hrest₁ l hl =>
    rename_i ih
    obtain ⟨tokens, htokens, hts⟩ := bind_eq_ok.mp h
    obtain rfl := pure_eq_ok.mp hts
    obtain ⟨gap, rest', hrest, rfl, hgap, hstop⟩ := Layout.skip_sound hskip
    obtain rfl : rest' = b :: rest := by
      rw [← hrest₁, show start = _ from c.advance_eq _, hrest, List.drop_left]
    have hbehind : l.behind + 1 ≤ start.rest.length := by
      obtain ⟨more, behind, rfl, hlength, -, -⟩ := lexeme_sound hstop hl
      rw [hrest₁, hlength]
      simp
    have hgap' : gap.length ≤ c.rest.length := by
      rw [hrest]
      simp
    have hnext : (c.followedBy (Pos.newline :: bs)).advance gap.length =
        start.followedBy (Pos.newline :: bs) := Cursor.followedBy_advance hgap' _
    have hskip' : Layout.skip (c.followedBy (Pos.newline :: bs)).rest = .ok gap.length := by
      rw [Cursor.followedBy, hrest, List.append_assoc]
      exact Layout.skip_complete (hgap.append (List.cons_ne_nil _ _) _)
        (Layout.not_starts_append_newline hstop bs)
    rw [tokensFrom_lexeme hskip' (by rw [hnext, Cursor.followedBy, hrest₁, List.cons_append]),
      lexeme_append_newline bs hl, hnext]
    have hend : (start.advance (l.behind + 1)).atEnd = c.atEnd := by
      rw [Cursor.atEnd_advance]
      exact c.atEnd_advance _
    simp only [Cursor.followedBy_advance hbehind, ih htokens, hend]
    cases tokensFrom ⟨bs, c.atEnd.after Pos.newline⟩ with
    | error e => rfl
    | ok us => rfl

end Token

/-! ## The number of line breaks -/

/-- The line breaks of a text. -/
def lineBreaks (s : String) : Nat := s.toList.count '\n'

theorem Byte.count_newline_utf8EncodeChar (c : Char) :
    (String.utf8EncodeChar c).count Pos.newline = if c = '\n' then 1 else 0 := by
  split
  · next hc =>
    subst hc
    rfl
  · next hc =>
    refine List.count_eq_zero.mpr fun hmem => ?_
    exact ne_ascii_of_mem_utf8EncodeChar (a := '\n') (by decide) hc hmem rfl

/-- The newlines among the bytes of a text are its line breaks. -/
theorem count_newline_ofText (s : String) : (ofText s).count Pos.newline = lineBreaks s := by
  have hchars : ∀ cs : List Char,
      (cs.flatMap String.utf8EncodeChar).count Pos.newline = cs.count '\n' := by
    intro cs
    induction cs with
    | nil => rfl
    | cons c cs ih =>
      rw [List.flatMap_cons, List.count_append, count_newline_utf8EncodeChar, ih, List.count_cons,
        Nat.add_comm]
      simp only [beq_iff_eq]
  rw [lineBreaks, ← hchars, ← ofText_ofList, String.ofList_toList]

theorem Pos.start_afterAll_newline (bs : List UInt8) :
    (Pos.start.afterAll bs).after Pos.newline = Pos.start.down (1 + bs.count Pos.newline) := by
  have hbehind := Pos.behind_afterAll (bs ++ [newline]) []
  rw [Pos.afterAll_append] at hbehind
  refine hbehind.trans ?_
  simp [Pos.behind, Pos.start, Pos.down]
  omega

/-- A text that is read to its end may be followed by a line break and another text: the tokens of
both are read, or what is wrong with the other is reported, and all that belongs to the other text
stands further down, by the lines of the first. -/
theorem tokenize_append_newline {a : String} {ts : List (Located Token)} (h : tokenize a = .ok ts)
    (b : String) :
    (∀ us, tokenize b = .ok us →
      tokenize (a ++ "\n" ++ b) = .ok (ts ++ us.map (Located.down (1 + lineBreaks a)))) ∧
    ∀ e, tokenize b = .error e →
      tokenize (a ++ "\n" ++ b) = .error (e.down (1 + lineBreaks a)) := by
  have hbytes : ofText (a ++ "\n" ++ b) = ofText a ++ Pos.newline :: ofText b := by
    rw [ofText_append, ofText_append, List.append_assoc]
    rfl
  have hread : tokenize (a ++ "\n" ++ b) =
      (lexedDown (1 + lineBreaks a) (tokenize b)).map (ts ++ ·) :=
    calc tokenize (a ++ "\n" ++ b)
      _ = Token.tokensFrom ((Cursor.ofString a).followedBy (Pos.newline :: ofText b)) :=
        congrArg (fun bs => Token.tokensFrom (Cursor.ofBytes bs)) hbytes
      _ = (Token.tokensFrom ((Cursor.ofString b).down (1 + lineBreaks a))).map (ts ++ ·) := by
        rw [Token.tokensFrom_append_newline _ h, ← count_newline_ofText]
        exact congrArg (fun p => (Token.tokensFrom ⟨ofText b, p⟩).map (ts ++ ·))
          (Pos.start_afterAll_newline (ofText a))
      _ = (lexedDown (1 + lineBreaks a) (tokenize b)).map (ts ++ ·) := by
        rw [Token.tokensFrom_down]
        rfl
  constructor
  · intro us hus
    rw [hread, hus]
    rfl
  · intro e he
    rw [hread, he]
    rfl

/-- The first text ends in a comment that seems to open another one. -/
theorem tokenize_append_newline_comment :
    tokenize "a\n# /*" = .ok [⟨.ident "a", ⟨1, 1⟩⟩] ∧
      tokenize ("a\n# /*" ++ "\n" ++ "b") = .ok [⟨.ident "a", ⟨1, 1⟩⟩, ⟨.ident "b", ⟨3, 1⟩⟩] ∧
      tokenize ("a\n# /*" ++ "\n" ++ "b\"") = .error ⟨.unterminatedString, ⟨3, 2⟩⟩ := by
  have ha : tokenize "a\n# /*" = .ok [⟨.ident "a", ⟨1, 1⟩⟩] := by decide +kernel
  exact ⟨ha, (tokenize_append_newline ha "b").1 [⟨.ident "b", ⟨1, 1⟩⟩] (by decide +kernel),
    (tokenize_append_newline ha "b\"").2 ⟨.unterminatedString, ⟨1, 2⟩⟩ (by decide +kernel)⟩

end MiniC
