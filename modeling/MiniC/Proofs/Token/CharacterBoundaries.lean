import Mathlib.Data.List.Basic
import Mathlib.Tactic.SplitIfs
import MiniC.Proofs.Token.LexerComplete

/-!
# The lexer never stops inside a character

The lexer works on bytes, and a character outside of ASCII has several of them. It stops on ASCII
bytes only, and these never are a part of another character, so that a text that is cut next to one
of them is cut between two characters. Hence the lexer stands between two characters whenever it
looks for a token, the bytes of a string literal are always those of a text, and a character that
starts no token is reported as it is.
-/

namespace MiniC

open Byte

/-! ## Texts among bytes -/

namespace Byte

variable {as bs : List UInt8} {b : UInt8}

/-- The bytes are those of a text. -/
def IsText (bs : List UInt8) : Prop := ∃ s : String, ofText s = bs

theorem ofText_injective {s t : String} (h : ofText s = ofText t) : s = t := by
  unfold ofText at h
  rw [← String.toByteArray_inj, ByteArray.ext_iff, ← Array.toList_inj]
  exact h

theorem isText_chars (cs : List Char) : IsText (cs.flatMap String.utf8EncodeChar) :=
  ⟨String.ofList cs, ofText_ofList cs⟩

theorem isText_char (c : Char) : IsText (String.utf8EncodeChar c) := by
  have h := isText_chars [c]
  rwa [List.flatMap_singleton] at h

theorem isText_ascii (hb : b.toNat < 128) : IsText [b] := by
  rw [← utf8EncodeChar_ofUInt8 hb]
  exact isText_char _

theorem IsText.append (ha : IsText as) (hb : IsText bs) : IsText (as ++ bs) := by
  obtain ⟨s, rfl⟩ := ha
  obtain ⟨t, rfl⟩ := hb
  exact ⟨s ++ t, ofText_append s t⟩

/-- An ASCII byte is a character, and never a part of another one. -/
theorem utf8EncodeChar_of_mem {c : Char} (hb : b.toNat < 128)
    (hmem : b ∈ String.utf8EncodeChar c) : String.utf8EncodeChar c = [b] := by
  have hc : c.toNat < 128 := by
    by_contra hge
    exact absurd hb (Nat.not_lt.mpr (le_toNat_of_mem_utf8EncodeChar (Nat.le_of_not_lt hge) hmem))
  rw [utf8EncodeChar_of_lt hc] at hmem ⊢
  rw [List.mem_singleton.mp hmem]

/-- Next to an ASCII byte, a text is cut between two characters. -/
theorem IsText.split (h : IsText (as ++ b :: bs)) (hb : b.toNat < 128) :
    IsText as ∧ IsText bs := by
  obtain ⟨s, hs⟩ := h
  rw [← String.ofList_toList (s := s), ofText_ofList] at hs
  generalize s.toList = cs at hs
  induction cs generalizing as with
  | nil => simp at hs
  | cons c cs ih =>
    rw [List.flatMap_cons] at hs
    rcases List.append_eq_append_iff.mp hs with ⟨as', rfl, hrest⟩ | ⟨more, hc, hrest⟩
    · -- the byte stands behind the first character
      obtain ⟨has', hbs⟩ := ih hrest
      exact ⟨(isText_char c).append has', hbs⟩
    · cases more with
      | nil =>
        rw [List.append_nil] at hc
        exact ⟨hc ▸ isText_char c, (ih (show _ = [] ++ b :: bs from hrest.symm)).2⟩
      | cons x more =>
        -- the byte is one of the first character, and then the only one
        obtain ⟨rfl, hbs⟩ := List.cons.inj hrest
        rw [utf8EncodeChar_of_mem hb (by simp [hc])] at hc
        obtain rfl : as = [] := by
          rcases List.append_eq_singleton_iff.mp hc.symm with ⟨has, -⟩ | ⟨-, hmore⟩
          · exact has
          · cases hmore
        obtain rfl : more = [] := (List.cons.inj hc).2.symm
        exact ⟨⟨"", rfl⟩, hbs ▸ isText_chars cs⟩

/-- Behind an ASCII byte the text goes on. -/
theorem IsText.behind_ascii (h : IsText (b :: bs)) (hb : b.toNat < 128) : IsText bs := by
  have hsplit : IsText ([] ++ b :: bs) := h
  exact (hsplit.split hb).2

/-- The last byte is ASCII. -/
def EndsAscii (bs : List UInt8) : Prop := ∃ init last, bs = init ++ [last] ∧ last.toNat < 128

theorem endsAscii_of_all (hne : bs ≠ []) (h : ∀ b ∈ bs, b.toNat < 128) : EndsAscii bs :=
  ⟨bs.dropLast, bs.getLast hne, (List.dropLast_append_getLast hne).symm,
    h _ (List.getLast_mem hne)⟩

theorem EndsAscii.append_left (h : EndsAscii bs) (as : List UInt8) : EndsAscii (as ++ bs) := by
  obtain ⟨init, last, rfl, hlast⟩ := h
  exact ⟨as ++ init, last, (List.append_assoc _ _ _).symm, hlast⟩

/-- A text is cut between characters wherever the front ends in an ASCII byte. -/
theorem EndsAscii.split (h : EndsAscii as) (htext : IsText (as ++ bs)) :
    IsText as ∧ IsText bs := by
  obtain ⟨init, last, rfl, hlast⟩ := h
  rw [List.append_assoc, List.singleton_append] at htext
  obtain ⟨hinit, hbs⟩ := htext.split hlast
  exact ⟨hinit.append (isText_ascii hlast), hbs⟩

theorem toNat_lt_of_isBlank (h : isBlank b = true) : b.toNat < 128 := by
  simp only [isBlank, Bool.or_eq_true, decide_eq_true_eq] at h
  rcases h with (((rfl | rfl) | rfl) | rfl) | rfl <;> decide

/-- The character that the bytes of a text start with. -/
theorem IsText.charAt {rest : List UInt8} (h : IsText (b :: rest)) :
    ∃ (c : Char) (s : String), b :: rest = ofText (String.singleton c ++ s) ∧
      Token.charAt b rest = c := by
  obtain ⟨s, hs⟩ := h
  rw [← String.ofList_toList (s := s)] at hs
  cases hcs : s.toList with
  | nil =>
    rw [hcs] at hs
    cases hs
  | cons c cs =>
    rw [hcs] at hs
    have hbytes : (⟨(b :: rest).toArray⟩ : ByteArray) = (String.ofList (c :: cs)).toByteArray := by
      rw [← hs]
      simp only [ofText, Array.toArray_toList]
    rw [String.toByteArray_ofList, List.utf8Encode_cons] at hbytes
    refine ⟨c, String.ofList cs, ?_, ?_⟩
    · rw [← String.ofList_cons, hs]
    · rw [Token.charAt, hbytes, List.utf8DecodeChar?_utf8Encode_singleton_append]
      rfl

end Byte

/-! ## Layout and lexemes -/

/-- Layout ends between two characters. -/
theorem Layout.Gap.isText {gap rest : List UInt8} (h : Layout.Gap gap rest)
    (htext : IsText (gap ++ rest)) : IsText gap ∧ IsText rest := by
  induction h with
  | nil => exact ⟨⟨"", rfl⟩, htext⟩
  | @blank b gap rest hb _ ih =>
    have hascii := toNat_lt_of_isBlank hb
    obtain ⟨hgap, hrest⟩ := ih (htext.behind_ascii hascii)
    exact ⟨(isText_ascii hascii).append hgap, hrest⟩
  | @line opener body gap rest _ _ hend _ ih =>
    cases hnext : gap ++ rest with
    | nil =>
      -- the comment goes up to the end of the text
      obtain ⟨rfl, rfl⟩ := List.append_eq_nil_iff.mp hnext
      rw [List.append_nil, List.append_nil] at htext
      exact ⟨by rwa [List.append_nil], ⟨"", rfl⟩⟩
    | cons c line =>
      obtain rfl : c = Pos.newline := hend c (by rw [hnext]; rfl)
      rw [List.append_assoc, hnext] at htext
      obtain ⟨hcomment, hline⟩ := htext.split (by decide)
      have hnewline : IsText [Pos.newline] := isText_ascii (by decide)
      obtain ⟨hgap, hrest⟩ := ih (by rw [hnext]; exact hnewline.append hline)
      exact ⟨hcomment.append hgap, hrest⟩
  | @block body gap rest _ _ ih =>
    have hends : EndsAscii (Layout.blockOpener ++ body ++ Layout.blockCloser) :=
      EndsAscii.append_left ⟨[ascii '*'], ascii '/', rfl, by decide⟩ _
    rw [List.append_assoc] at htext
    obtain ⟨hcomment, hmore⟩ := hends.split htext
    obtain ⟨hgap, hrest⟩ := ih hmore
    exact ⟨hcomment.append hgap, hrest⟩

theorem IsWord.endsAscii {w : List UInt8} (h : IsWord w) : EndsAscii w := by
  have hall : ∀ b ∈ w, b.toNat < 128 := fun b hb => toNat_lt_of_isWordPart (h.isWordPart b hb)
  obtain ⟨b, more, rfl, -⟩ := h
  exact endsAscii_of_all (List.cons_ne_nil _ _) hall

theorem IsDigits.endsAscii {ds : List UInt8} (h : IsDigits ds) : EndsAscii ds :=
  endsAscii_of_all h.1 fun b hb => toNat_lt_of_isWordPart (isWordPart_of_isDigit (h.2 b hb))

namespace Token

theorem single?_ascii {a : UInt8} {t : Token} (h : single? a = some t) : a.toNat < 128 := by
  unfold single? at h
  split at h
  case h_15 => cases h
  all_goals
    next ha =>
      rw [eq_ascii ha]
      decide

theorem pair?_ascii {a b : UInt8} {t : Token} (h : pair? a b = some t) : b.toNat < 128 := by
  unfold pair? at h
  split at h
  case h_9 => cases h
  all_goals
    next ha hb =>
      rw [eq_ascii hb]
      decide

/-- Whatever a lexeme contains, it ends in ASCII. -/
theorem Denotes.endsAscii {l : List UInt8} {t : Token} (h : Denotes l t) : EndsAscii l := by
  cases h with
  | symbol ht =>
    rcases ht.spelling with hword | ⟨a, heq, hsingle⟩ | ⟨a, b, heq, hpair⟩
    · exact hword.endsAscii
    · exact ⟨[], a, heq, single?_ascii hsingle⟩
    · exact ⟨[a], b, heq, pair?_ascii hpair⟩
  | @truth b =>
    cases b with
    | true => exact IsWord.endsAscii (isWord_of_all rfl (by decide) (by decide))
    | false => exact IsWord.endsAscii (isWord_of_all rfl (by decide) (by decide))
  | ident hword _ => exact hword.endsAscii
  | int hds _ _ => exact hds.endsAscii
  | double hwhole hpoint hexponent _ _ _ =>
    cases hexponent with
    | absent =>
      rw [List.append_nil]
      cases hpoint with
      | absent =>
        rw [List.append_nil]
        exact hwhole.endsAscii
      | digits hds => exact (hds.endsAscii.append_left [_]).append_left _
    | @digits mark sign ds _ _ hds => exact (hds.endsAscii.append_left (mark :: sign)).append_left _
  | @string body s _ => exact ⟨ascii '"' :: body, ascii '"', rfl, by decide⟩

end Token

/-! ## String literals -/

/-- What a literal denotes is a text, since only ASCII bytes are taken away or put in their
place. -/
theorem Decodes.isText {body content : List UInt8} (h : Decodes body content) :
    ∀ before, IsText (before ++ body) → IsText (before ++ content) := by
  induction h with
  | nil => exact fun before htext => htext
  | @plain b body content _ _ _ _ ih =>
    intro before htext
    rw [List.append_cons] at htext ⊢
    exact ih _ htext
  | @escape e b body content hescape _ ih =>
    intro before htext
    have hascii : e.toNat < 128 ∧ b.toNat < 128 := by
      simp only [escapes, List.mem_cons, Prod.mk.injEq, List.not_mem_nil, or_false] at hescape
      rcases hescape with ⟨rfl, rfl⟩ | ⟨rfl, rfl⟩ | ⟨rfl, rfl⟩ | ⟨rfl, rfl⟩ | ⟨rfl, rfl⟩ <;> decide
    obtain ⟨hbefore, hmore⟩ := htext.split (by decide)
    have hcontent := ih [] (hmore.behind_ascii hascii.1)
    rw [List.append_cons]
    exact (hbefore.append (isText_ascii hascii.2)).append hcontent

namespace StringLiteral

/-- What stands behind the quote of a literal that is never closed: after `body`, which could be
that of a literal, comes the end of the line or of the text, perhaps behind a backslash. -/
def NeverCloses (body tail : String) : Prop :=
  (∃ content, Decodes (ofText body) content) ∧
    (tail = "" ∨ tail = "\\" ∨ ∃ line, tail = "\n" ++ line)

theorem Scan.push_eq_unclosed {b : UInt8} {k : Nat} {s : Scan} :
    s.push b k = .unclosed ↔ s = .unclosed := by
  cases s <;> simp [Scan.push]

/-- An unclosed literal decodes up to the end of the text or of the line, a last backslash apart. -/
theorem scan_unclosed {bs : List UInt8} (h : scan bs = .unclosed) :
    ∃ body content tail, bs = body ++ tail ∧ Decodes body content ∧
      (tail = [] ∨ tail = [ascii '\\'] ∨ ∃ line, tail = Pos.newline :: line) := by
  fun_induction scan bs with
  | case1 => exact ⟨[], [], [], rfl, .nil, .inl rfl⟩
  | case2 => cases h
  | case3 rest => exact ⟨[], [], _, rfl, .nil, .inr (.inr ⟨rest, rfl⟩)⟩
  | case4 => exact ⟨[], [], _, rfl, .nil, .inr (.inl rfl)⟩
  | case5 e rest b hescape _ _ ih =>
    obtain ⟨body, content, tail, rfl, hbody, htail⟩ := ih (Scan.push_eq_unclosed.mp h)
    exact ⟨ascii '\\' :: e :: body, b :: content, tail, rfl,
      .escape (escape?_eq_some.mp hescape) hbody, htail⟩
  | case6 => cases h
  | case7 b rest hquote hnewline hbackslash ih =>
    obtain ⟨body, content, tail, rfl, hbody, htail⟩ := ih (Scan.push_eq_unclosed.mp h)
    exact ⟨b :: body, b :: content, tail, rfl, .plain hquote hbackslash hnewline hbody, htail⟩

theorem neverCloses_of_scan {rest : List UInt8} (htext : IsText rest)
    (h : scan rest = .unclosed) :
    ∃ body tail : String, rest = ofText (body ++ tail) ∧ NeverCloses body tail := by
  obtain ⟨bytes, content, tail, rfl, hbody, htail⟩ := scan_unclosed h
  rcases htail with rfl | rfl | ⟨line, rfl⟩
  · rw [List.append_nil] at htext ⊢
    obtain ⟨body, rfl⟩ := htext
    exact ⟨body, "", by rw [String.append_empty], ⟨content, hbody⟩, .inl rfl⟩
  · obtain ⟨⟨body, rfl⟩, -⟩ := htext.split (by decide)
    refine ⟨body, "\\", ?_, ⟨content, hbody⟩, .inr (.inl rfl)⟩
    rw [ofText_append]
    rfl
  · obtain ⟨⟨body, rfl⟩, ⟨line, rfl⟩⟩ := htext.split (by decide)
    refine ⟨body, "\n" ++ line, ?_, ⟨content, hbody⟩, .inr (.inr ⟨line, rfl⟩)⟩
    rw [ofText_append, ofText_append]
    rfl

end StringLiteral

/-! ## The way through a text -/

/-- The cursor between two parts of a text. -/
def Cursor.between (before behind : String) : Cursor :=
  ⟨ofText behind, Pos.behind (ofText before)⟩

theorem Cursor.ofString_eq_between (source : String) :
    Cursor.ofString source = Cursor.between "" source := rfl

/-- The cursor can be moved to where both parts are texts. -/
theorem Cursor.advance_between (before : String) {behind : String} {bs rest : List UInt8}
    (h : ofText behind = bs ++ rest) (hbs : IsText bs) (hrest : IsText rest) :
    ∃ front back : String, behind = front ++ back ∧ ofText back = rest ∧
      (Cursor.between before behind).advance bs.length = Cursor.between (before ++ front) back := by
  obtain ⟨front, rfl⟩ := hbs
  obtain ⟨back, rfl⟩ := hrest
  refine ⟨front, back, ofText_injective (by rw [h, ofText_append]), rfl, ?_⟩
  rw [Token.advance_behind h rfl, Cursor.between, ofText_append]

namespace Token

variable {c d : Cursor} {before behind source : String} {b : UInt8} {rest : List UInt8}

/-- On its way from `c` through a text, the lexer looks for a token at `d`. -/
inductive LooksAt : Cursor → Cursor → Prop where
  | here {c : Cursor} {n : Nat} : Layout.skip c.rest = .ok n → LooksAt c (c.advance n)
  | later {c d : Cursor} {n : Nat} {b : UInt8} {rest : List UInt8} {l : Lexeme} :
      Layout.skip c.rest = .ok n → (c.advance n).rest = b :: rest → lexeme b rest = .ok l →
      LooksAt ((c.advance n).advance (l.behind + 1)) d → LooksAt c d

/-- Layout ends between two characters. -/
theorem skip_between {n : Nat} (h : Layout.skip (Cursor.between before behind).rest = .ok n) :
    ∃ gap rest : String, behind = gap ++ rest ∧ ¬Layout.Starts (ofText rest) ∧
      (Cursor.between before behind).advance n = Cursor.between (before ++ gap) rest := by
  obtain ⟨gap, rest, heq, rfl, hgap, hstop⟩ := Layout.skip_sound h
  obtain ⟨htext, hrest⟩ := hgap.isText ⟨behind, heq⟩
  obtain ⟨front, back, hbehind, rfl, hadvance⟩ := Cursor.advance_between before heq htext hrest
  exact ⟨front, back, hbehind, hstop, hadvance⟩

/-- A lexeme ends between two characters. -/
theorem lexeme_between (before : String) {l : Lexeme} (hlayout : ¬Layout.Starts (ofText behind))
    (hbehind : ofText behind = b :: rest) (h : lexeme b rest = .ok l) :
    ∃ word more : String, behind = word ++ more ∧
      (Cursor.between before behind).advance (l.behind + 1) =
        Cursor.between (before ++ word) more := by
  rw [hbehind] at hlayout
  obtain ⟨more, rest', rfl, hmore, hdenotes, -⟩ := lexeme_sound hlayout h
  have hwhole : IsText (b :: more ++ rest') := ⟨behind, hbehind⟩
  obtain ⟨htext, hrest⟩ := hdenotes.endsAscii.split hwhole
  obtain ⟨front, back, hcut, -, hadvance⟩ := Cursor.advance_between before hbehind htext hrest
  rw [List.length_cons, ← hmore] at hadvance
  exact ⟨front, back, hcut, hadvance⟩

/-- Wherever the lexer looks for a token, it stands between two characters. -/
theorem LooksAt.between (h : LooksAt c d) :
    ∀ {before behind : String}, c = Cursor.between before behind →
      ∃ front back : String, before ++ behind = front ++ back ∧ d = Cursor.between front back := by
  induction h with
  | here hskip =>
    rintro before behind rfl
    obtain ⟨gap, rest, rfl, -, hadvance⟩ := skip_between hskip
    exact ⟨before ++ gap, rest, String.append_assoc.symm, hadvance⟩
  | later hskip hrest hl _ ih =>
    rintro before behind rfl
    obtain ⟨gap, rest, rfl, hlayout, hadvance⟩ := skip_between hskip
    rw [hadvance] at hrest ih
    obtain ⟨word, more, rfl, hnext⟩ :=
      lexeme_between (before ++ gap) hlayout hrest hl
    obtain ⟨front, back, hcut, hd⟩ := ih hnext
    refine ⟨front, back, ?_, hd⟩
    rw [← hcut]
    simp only [String.append_assoc]

/-- Tokens are found where the lexer looks for them. -/
theorem tokensFrom_looksAt {ts : List (Located Token)} (h : tokensFrom c = .ok ts) :
    ∀ t ∈ ts, ∃ d, LooksAt c d ∧ t.pos = d.pos := by
  fun_induction tokensFrom c generalizing ts with
  | case1 => cases h
  | case2 =>
    cases h
    exact List.forall_mem_nil _
  | case3 => cases h
  | case4 c n hskip start b rest hrest l hl =>
    rename_i ih
    obtain ⟨tokens, htokens, hts⟩ := bind_eq_ok.mp h
    obtain rfl := pure_eq_ok.mp hts
    refine List.forall_mem_cons.mpr ⟨⟨start, .here hskip, rfl⟩, fun t ht => ?_⟩
    obtain ⟨d, hd, hpos⟩ := ih htokens t ht
    exact ⟨d, .later hskip hrest hl hd, hpos⟩

/-! ## What is reported -/

/-- A problem is a comment that is not closed, or found where the lexer looks for a token. -/
theorem tokensFrom_error {e : LexError} (h : tokensFrom c = .error e) :
    e.value = .unterminatedComment ∨
      ∃ d b rest misfit, LooksAt c d ∧ d.rest = b :: rest ∧ lexeme b rest = .error misfit ∧
        e = ⟨misfit.problem, (d.advance misfit.offset).pos⟩ := by
  fun_induction tokensFrom c with
  | case1 c n hskip =>
    cases h
    exact .inl rfl
  | case2 => cases h
  | case3 c n hskip start b rest hrest misfit hmisfit =>
    cases h
    exact .inr ⟨start, b, rest, misfit, .here hskip, hrest, hmisfit, rfl⟩
  | case4 c n hskip start b rest hrest l hl ih =>
    rcases bind_eq_error.mp h with herror | ⟨ts, -, hts⟩
    · rcases ih herror with hcomment | ⟨d, b', rest', misfit, hd, hat⟩
      · exact .inl hcomment
      · exact .inr ⟨d, b', rest', misfit, .later hskip hrest hl hd, hat⟩
    · cases hts

theorem number_error {misfit : Misfit} (h : number b rest = .error misfit) :
    misfit.problem = .invalidNumber ∨ misfit.problem = .integerOutOfRange := by
  unfold number at h
  dsimp only at h
  split_ifs at h <;> cases h <;> simp

/-- What is wrong with a text that starts with no lexeme. -/
theorem lexeme_error {misfit : Misfit} (h : lexeme b rest = .error misfit) :
    misfit.problem = .invalidNumber ∨ misfit.problem = .integerOutOfRange ∨
      b = ascii '"' ∧ stringLiteral rest = .error misfit ∨
        misfit = ⟨.invalidCharacter (charAt b rest), 0⟩ := by
  unfold lexeme at h
  split at h
  · cases h
  split_ifs at h with hdigit hquote hword
  · rcases number_error h with hnumber | hnumber
    · exact .inl hnumber
    · exact .inr (.inl hnumber)
  · exact .inr (.inr (.inl ⟨hquote, h⟩))
  · split at h
    · cases h
    · cases h
      exact .inr (.inr (.inr rfl))

theorem stringLiteral_ne_invalidCharacter {c : Char} {k : Nat} (rest : List UInt8) :
    stringLiteral rest ≠ .error ⟨.invalidCharacter c, k⟩ := by
  unfold stringLiteral
  split
  · split <;> simp
  · simp
  · simp

/-- The bytes that a closed literal denotes are those of a text. -/
theorem fromUTF8?_of_scan {content : List UInt8} {n : Nat} (htext : IsText (ascii '"' :: rest))
    (h : StringLiteral.scan rest = .closed content n) :
    ∃ s, String.fromUTF8? ⟨content.toArray⟩ = some s := by
  obtain ⟨body, more, rfl, -, hbody⟩ := StringLiteral.scan_sound h
  have hrest := htext.behind_ascii (by decide)
  obtain ⟨s, hs⟩ := hbody.isText [] (hrest.split (by decide)).1
  rw [List.nil_append] at hs
  exact ⟨s, by rw [← hs, fromUTF8?_ofText]⟩

/-- A literal is called unclosed only if its line or the text ends first. -/
theorem stringLiteral_unterminated {k : Nat} (htext : IsText (ascii '"' :: rest))
    (h : stringLiteral rest = .error ⟨.unterminatedString, k⟩) :
    k = 0 ∧ ∃ body tail : String, rest = ofText (body ++ tail) ∧
      StringLiteral.NeverCloses body tail := by
  unfold stringLiteral at h
  split at h
  · next hscan =>
    obtain ⟨s, hs⟩ := fromUTF8?_of_scan htext hscan
    rw [hs] at h
    cases h
  · cases h
  · next hscan =>
    cases h
    have hrest := htext.behind_ascii (by decide)
    exact ⟨rfl, StringLiteral.neverCloses_of_scan hrest hscan⟩

end Token

section Tokenize

variable {source : String} {pos : Pos}

theorem Token.LooksAt.cut {d : Cursor} (h : Token.LooksAt (Cursor.ofString source) d) :
    ∃ before behind : String, source = before ++ behind ∧ d = Cursor.between before behind := by
  obtain ⟨before, behind, hcut, hd⟩ := h.between (Cursor.ofString_eq_between source)
  rw [String.empty_append] at hcut
  exact ⟨before, behind, hcut, hd⟩

/-- Any problem but an unclosed comment is found between two characters. -/
theorem tokenize_error_between {e : LexError} (h : tokenize source = .error e)
    (hcomment : e.value ≠ .unterminatedComment) :
    ∃ (before behind : String) (b : UInt8) (rest : List UInt8) (misfit : Token.Misfit),
      source = before ++ behind ∧ ofText behind = b :: rest ∧
      Token.LooksAt (Cursor.ofString source) (Cursor.between before behind) ∧
      Token.lexeme b rest = .error misfit ∧ e.value = misfit.problem ∧
      e.pos = ((Cursor.between before behind).advance misfit.offset).pos := by
  rcases Token.tokensFrom_error h with hvalue | ⟨d, b, rest, misfit, hd, hrest, hmisfit, rfl⟩
  · exact absurd hvalue hcomment
  · obtain ⟨before, behind, hsource, rfl⟩ := hd.cut
    exact ⟨before, behind, b, rest, misfit, hsource, hrest, hd, hmisfit, rfl, rfl⟩

/-- An unterminated literal is reported at its opening quote. -/
theorem tokenize_unterminatedString (h : tokenize source = .error ⟨.unterminatedString, pos⟩) :
    ∃ before body tail : String, source = before ++ ("\"" ++ (body ++ tail)) ∧
      StringLiteral.NeverCloses body tail ∧ pos = Pos.behind (ofText before) ∧
      Token.LooksAt (Cursor.ofString source)
        (Cursor.between before ("\"" ++ (body ++ tail))) := by
  obtain ⟨before, behind, b, rest, ⟨problem, offset⟩, hsource, hbehind, hd, hmisfit, hvalue,
    hpos⟩ := tokenize_error_between h (by simp)
  obtain rfl : .unterminatedString = problem := hvalue
  rcases Token.lexeme_error hmisfit with hnumber | hnumber | ⟨rfl, hliteral⟩ | hcharacter
  · cases hnumber
  · cases hnumber
  · obtain ⟨rfl, body, tail, rfl, hnever⟩ :=
      Token.stringLiteral_unterminated ⟨behind, hbehind⟩ hliteral
    obtain rfl : behind = "\"" ++ (body ++ tail) :=
      ofText_injective (by rw [hbehind, ofText_append]; rfl)
    exact ⟨before, body, tail, hsource, hnever, hpos, hd⟩
  · cases hcharacter

/-- An invalid character is reported whole, at its own place. -/
theorem tokenize_invalidCharacter {c : Char}
    (h : tokenize source = .error ⟨.invalidCharacter c, pos⟩) :
    ∃ before behind : String, source = before ++ (String.singleton c ++ behind) ∧
      pos = Pos.behind (ofText before) ∧
      Token.LooksAt (Cursor.ofString source)
        (Cursor.between before (String.singleton c ++ behind)) := by
  obtain ⟨before, behind, b, rest, ⟨problem, offset⟩, hsource, hbehind, hd, hmisfit, hvalue,
    hpos⟩ := tokenize_error_between h (by simp)
  obtain rfl : .invalidCharacter c = problem := hvalue
  rcases Token.lexeme_error hmisfit with hnumber | hnumber | ⟨rfl, hliteral⟩ | hcharacter
  · cases hnumber
  · cases hnumber
  · exact absurd hliteral (Token.stringLiteral_ne_invalidCharacter rest)
  · obtain ⟨c', more, hfirst, hc⟩ := IsText.charAt ⟨behind, hbehind⟩
    rw [hc] at hcharacter
    cases hcharacter
    obtain rfl : behind = String.singleton c ++ more := ofText_injective (hbehind.trans hfirst)
    exact ⟨before, more, hsource, hpos, hd⟩

end Tokenize

/-- The lexer stands between two characters whenever it looks for a token, and there every closed
literal denotes a text. The tokens that it gives were found at such places. A literal is reported
only if its line or the text ends before it is closed, and a character only if it is the next one of
the text. -/
theorem tokenize_between_characters (source : String) :
    (∀ d, Token.LooksAt (Cursor.ofString source) d →
      (∃ before behind : String, source = before ++ behind ∧ d = Cursor.between before behind) ∧
        ∀ rest content n, d.rest = ascii '"' :: rest →
          StringLiteral.scan rest = .closed content n →
            ∃ s, String.fromUTF8? ⟨content.toArray⟩ = some s) ∧
    (∀ ts, tokenize source = .ok ts →
      ∀ t ∈ ts, ∃ d, Token.LooksAt (Cursor.ofString source) d ∧ t.pos = d.pos) ∧
    (∀ pos, tokenize source = .error ⟨.unterminatedString, pos⟩ →
      ∃ before body tail : String, source = before ++ ("\"" ++ (body ++ tail)) ∧
        StringLiteral.NeverCloses body tail ∧ pos = Pos.behind (ofText before) ∧
        Token.LooksAt (Cursor.ofString source) (Cursor.between before ("\"" ++ (body ++ tail)))) ∧
    ∀ c pos, tokenize source = .error ⟨.invalidCharacter c, pos⟩ →
      ∃ before behind : String, source = before ++ (String.singleton c ++ behind) ∧
        pos = Pos.behind (ofText before) ∧
        Token.LooksAt (Cursor.ofString source)
          (Cursor.between before (String.singleton c ++ behind)) := by
  refine ⟨fun d hd => ⟨hd.cut, fun rest content n hrest hscan => ?_⟩,
    fun ts => Token.tokensFrom_looksAt, fun pos => tokenize_unterminatedString,
    fun c pos => tokenize_invalidCharacter⟩
  obtain ⟨before, behind, -, rfl⟩ := hd.cut
  exact Token.fromUTF8?_of_scan ⟨behind, hrest⟩ hscan

/-- A comment, a literal and a character that starts no token, all outside of ASCII. -/
theorem tokenize_between_characters_accents :
    tokenize "/*é*/\"ü\"é" = .error ⟨.invalidCharacter 'é', ⟨1, 11⟩⟩ ∧
      ∃ before behind : String, "/*é*/\"ü\"é" = before ++ (String.singleton 'é' ++ behind) ∧
        ⟨1, 11⟩ = Pos.behind (ofText before) ∧
        Token.LooksAt (Cursor.ofString "/*é*/\"ü\"é")
          (Cursor.between before (String.singleton 'é' ++ behind)) := by
  have h : tokenize "/*é*/\"ü\"é" = .error ⟨.invalidCharacter 'é', ⟨1, 11⟩⟩ := by decide +kernel
  exact ⟨h, (tokenize_between_characters _).2.2.2 _ _ h⟩

end MiniC
