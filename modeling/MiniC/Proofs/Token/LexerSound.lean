import MiniC.Proofs.Except
import MiniC.Proofs.Token.Numerals

/-!
# What the lexer reads

The tokens of a text split it into their lexemes and layout, and each lexeme is the longest one at
its place. For the latter the forms that a lexeme can have are told apart by the first byte: at any
place the lexemes that start there all have the same form, and the scanner of this form takes the
longest of them.
-/

namespace MiniC

namespace Token

open Byte

/-! ## Forms -/

/-- The forms of lexemes. -/
inductive Form : List UInt8 → Prop where
  | word {w : List UInt8} : IsWord w → Form w
  | numeral {whole point exponent : List UInt8} : IsDigits whole → PointPart point →
      ExponentPart exponent → Form (whole ++ point ++ exponent)
  | literal {body content : List UInt8} : Decodes body content →
      Form (ascii '"' :: (body ++ [ascii '"']))
  | single {a : UInt8} : Form [a]
  | pair {a b : UInt8} {t : Token} : pair? a b = some t → Form [a, b]

/-- A lexeme that denotes a token has one of the forms. -/
theorem Denotes.form {l : List UInt8} {t : Token} (h : Denotes l t) : Form l := by
  cases h with
  | symbol ht =>
    rcases ht.spelling with hword | ⟨a, heq, -⟩ | ⟨a, b, heq, hpair⟩
    · exact .word hword
    · rw [heq]
      exact .single
    · rw [heq]
      exact .pair hpair
  | @truth b =>
    cases b with
    | true => exact .word (isWord_of_all rfl (by decide) (by decide))
    | false => exact .word (isWord_of_all rfl (by decide) (by decide))
  | ident hword _ => exact .word hword
  | int hds _ _ =>
    have h := Form.numeral hds .absent .absent
    rwa [List.append_nil, List.append_nil] at h
  | double hwhole hpoint hexponent _ _ _ => exact .numeral hwhole hpoint hexponent
  | string hbody => exact .literal hbody

/-! ## The longest lexeme -/

section Longest

variable {b : UInt8} {l rest : List UInt8}

/-- A numeral starts with a digit. -/
theorem isDigit_of_isPrefix {whole point exponent : List UInt8} (hwhole : IsDigits whole)
    (h : whole ++ point ++ exponent <+: b :: rest) : isDigit b = true := by
  obtain ⟨d, ds, rfl⟩ := List.exists_cons_of_ne_nil hwhole.1
  obtain ⟨rfl, -⟩ := List.cons_prefix_cons.mp h
  exact hwhole.2 d (by simp)

/-- A text that begins with a word begins with a byte that may begin one. -/
theorem isWordStart_of_isPrefix {w : List UInt8} (hw : IsWord w) (h : w <+: b :: rest) :
    isWordStart b = true := by
  obtain ⟨c, more, rfl, hc, -⟩ := hw
  obtain ⟨rfl, -⟩ := List.cons_prefix_cons.mp h
  exact hc

/-- Behind a byte that begins a word, no lexeme is longer than the word. -/
theorem Form.word_longest (hb : isWordStart b = true) (hform : Form l) (h : l <+: b :: rest) :
    l.length ≤ (b :: rest.takeWhile isWordPart).length := by
  cases hform with
  | word hw =>
    obtain ⟨c, more, rfl, -, hmore⟩ := hw
    obtain ⟨-, z, rfl⟩ := List.cons_prefix_cons.mp h
    rw [List.takeWhile_append_of_pos hmore]
    simp
  | numeral hwhole _ _ =>
    have hdigit := isDigit_of_isPrefix hwhole h
    rw [not_isWordStart_of_isDigit hdigit] at hb
    cases hb
  | literal _ =>
    obtain ⟨rfl, -⟩ := List.cons_prefix_cons.mp h
    exact absurd hb (by decide)
  | single => simp
  | pair hpair =>
    obtain ⟨rfl, -⟩ := List.cons_prefix_cons.mp h
    have hpart := (pair?_eq_some hpair).2.2.1.1
    rw [isWordPart_of_isWordStart hb] at hpart
    cases hpart

/-- Behind a digit, no lexeme is longer than the scanned numeral. -/
theorem Form.number_longest (hb : isDigit b = true) (hform : Form l) (h : l <+: b :: rest) :
    l.length ≤ (Numeral.scan b rest).tail.length + 1 := by
  cases hform with
  | word hw =>
    have hstart := isWordStart_of_isPrefix hw h
    rw [not_isWordStart_of_isDigit hb] at hstart
    cases hstart
  | numeral hwhole hpoint hexponent => exact Numeral.scan_longest hwhole hpoint hexponent h
  | literal _ =>
    obtain ⟨rfl, -⟩ := List.cons_prefix_cons.mp h
    exact absurd hb (by decide)
  | single => simp
  | pair hpair =>
    obtain ⟨rfl, -⟩ := List.cons_prefix_cons.mp h
    have hpart := (pair?_eq_some hpair).2.2.1.1
    rw [isWordPart_of_isDigit hb] at hpart
    cases hpart

/-- Behind a quote, no lexeme is longer than the scanned literal. -/
theorem Form.literal_longest {content : List UInt8} {n : Nat}
    (hscan : StringLiteral.scan rest = .closed content n) (hform : Form l)
    (h : l <+: ascii '"' :: rest) : l.length ≤ n + 1 := by
  cases hform with
  | word hw => exact absurd (isWordStart_of_isPrefix hw h) (by decide)
  | numeral hwhole _ _ => exact absurd (isDigit_of_isPrefix hwhole h) (by decide)
  | @literal body _ hbody =>
    obtain ⟨-, z, rfl⟩ := List.cons_prefix_cons.mp h
    rw [List.append_assoc, List.singleton_append, StringLiteral.scan_complete hbody] at hscan
    cases hscan
    simp
  | single => simp
  | pair hpair =>
    obtain ⟨rfl, -⟩ := List.cons_prefix_cons.mp h
    exact absurd rfl (pair?_eq_some hpair).2.2.1.2

/-- What starts with punctuation has one byte, or two that make a token. -/
theorem Form.punctuation (hb : IsPunctuation b) (hform : Form l) (h : l <+: b :: rest) :
    l.length ≤ 1 ∨ l.length = 2 ∧ ∃ c t, rest.head? = some c ∧ pair? b c = some t := by
  obtain ⟨hpart, hquote⟩ := hb
  cases hform with
  | word hw =>
    rw [isWordPart_of_isWordStart (isWordStart_of_isPrefix hw h)] at hpart
    cases hpart
  | numeral hwhole _ _ =>
    rw [isWordPart_of_isDigit (isDigit_of_isPrefix hwhole h)] at hpart
    cases hpart
  | literal _ =>
    obtain ⟨rfl, -⟩ := List.cons_prefix_cons.mp h
    exact absurd rfl hquote
  | single => exact .inl (Nat.le_refl _)
  | @pair a c t hpair =>
    obtain ⟨rfl, z, rfl⟩ := List.cons_prefix_cons.mp h
    exact .inr ⟨rfl, c, t, rfl, hpair⟩

end Longest

/-! ## One lexeme -/

/-- The scanner has measured a lexeme of its token, behind the first byte `b`. -/
def Lexeme.Fits (b : UInt8) (rest : List UInt8) (l : Lexeme) : Prop :=
  ∃ more rest', rest = more ++ rest' ∧ l.behind = more.length ∧ Denotes (b :: more) l.token ∧
    Maximal (b :: more) rest'

section Lexeme

variable {b : UInt8} {rest : List UInt8} {l : Lexeme}

/-- A lexeme that does not end in a byte of a word stands apart from what follows. -/
theorem apart_of_last {last : UInt8} (init : List UInt8) (hlast : isWordPart last = false) :
    ∀ d ∈ (init ++ [last]).getLast?, ∀ c ∈ rest.head?,
      ¬(isWordPart d = true ∧ isWordPart c = true) := by
  rintro d hd - - ⟨hpart, -⟩
  rw [List.getLast?_concat, Option.mem_some] at hd
  rw [← hd, hlast] at hpart
  cases hpart

/-- A word that is read is the longest lexeme, and denotes its token. -/
theorem word_fits (hlayout : ¬Layout.Starts (b :: rest)) (hb : isWordStart b = true) :
    (word b rest).Fits b rest := by
  have hsplit : rest.takeWhile isWordPart ++ rest.dropWhile isWordPart = rest :=
    List.takeWhile_append_dropWhile
  have hword : IsWord (b :: rest.takeWhile isWordPart) :=
    ⟨b, _, rfl, hb, fun c hc => List.mem_takeWhile_imp hc⟩
  refine ⟨rest.takeWhile isWordPart, rest.dropWhile isWordPart, hsplit.symm, rfl,
    ofWord_denotes hword, ?_, ?_, ?_⟩
  · intro l' t ht hprefix
    rw [List.cons_append, hsplit] at hprefix
    exact ht.form.word_longest hb hprefix
  · rintro - - c hc ⟨-, hpart⟩
    have hstop := List.head?_dropWhile_not isWordPart rest
    rw [Option.mem_def.mp hc] at hstop
    simp [hpart] at hstop
  · rwa [List.cons_append, hsplit]

theorem int_denotes {ds : List UInt8} (hds : IsDigits ds)
    (hle : natOfDigits ds ≤ Numeral.maxInteger) :
    Denotes ds (.const (.int (Int32.ofNat (natOfDigits ds)))) := by
  rw [natOfDigits_eq] at hle ⊢
  exact .int hds hle (Int32.toInt_ofNat_of_lt (Nat.lt_succ_of_le hle))

theorem double_denotes {n : Numeral} (hn : n.WellFormed) (hint : n.isInteger = false)
    (hfinite : n.toDouble.isFinite = true) :
    Denotes (n.first :: n.tail) (.const (.double n.toDouble)) := by
  have hparts : Numeral.fractionBytes n.fraction ≠ [] ∨ n.exponentBytes ≠ [] := by
    rcases Bool.and_eq_false_iff.mp hint with hfraction | hexponent
    · left
      rw [Numeral.fractionBytes_of_ne_nil (by simpa using hfraction)]
      exact List.cons_ne_nil _ _
    · right
      obtain ⟨x, hx⟩ := Option.isSome_iff_exists.mp (Option.isNone_eq_false_iff.mp hexponent)
      rw [Numeral.exponentBytes, hx]
      exact List.cons_ne_nil _ _
  exact .double ⟨List.cons_ne_nil _ _, hn.whole⟩ hn.point hn.exponentPart hparts
    (Numeral.ofString?_spelling hn) hfinite

/-- A numeral that is read is the longest lexeme, and denotes its value. -/
theorem number_fits (hlayout : ¬Layout.Starts (b :: rest)) (hb : isDigit b = true)
    (h : number b rest = .ok l) : l.Fits b rest := by
  obtain ⟨rest', hrest⟩ := Numeral.scan_isPrefix b rest
  have hwell := Numeral.scan_wellFormed rest hb
  have hdrop : rest.drop (Numeral.scan b rest).tail.length = rest' :=
    (congrArg (List.drop _) hrest.symm).trans List.drop_left
  unfold number at h
  dsimp only at h
  rw [hdrop] at h
  split at h
  · cases h
  next hnext =>
  have hmaximal : Maximal (b :: (Numeral.scan b rest).tail) rest' := by
    refine ⟨fun l' t ht hprefix => ?_, ?_, ?_⟩
    · rw [List.cons_append, hrest] at hprefix
      exact ht.form.number_longest hb hprefix
    · rintro - - c hc ⟨-, hpart⟩
      rw [Option.mem_def.mp hc] at hnext
      exact hnext hpart
    · rwa [List.cons_append, hrest]
  split at h
  · next hint =>
    split at h
    · next hle =>
      cases h
      refine ⟨_, rest', hrest.symm, rfl, ?_, hmaximal⟩
      rw [Numeral.tail_of_isInteger hint]
      exact int_denotes ⟨List.cons_ne_nil _ _, hwell.whole⟩ hle
    · cases h
  · next hint =>
    split at h
    · next hfinite =>
      cases h
      exact ⟨_, rest', hrest.symm, rfl,
        double_denotes hwell (Bool.eq_false_iff.mpr hint) hfinite, hmaximal⟩
    · cases h

/-- A literal that is read is the longest lexeme, and denotes its content. -/
theorem stringLiteral_fits (hlayout : ¬Layout.Starts (ascii '"' :: rest))
    (h : stringLiteral rest = .ok l) : l.Fits (ascii '"') rest := by
  unfold stringLiteral at h
  split at h
  · next content n hscan =>
    split at h
    · next s hs =>
      cases h
      obtain ⟨body, rest', hrest, hn, hbody⟩ := StringLiteral.scan_sound hscan
      have hsplit : rest = body ++ [ascii '"'] ++ rest' := by
        rw [hrest, List.append_assoc, List.singleton_append]
      refine ⟨body ++ [ascii '"'], rest', hsplit, by simp [hn], ?_, ?_,
        apart_of_last (ascii '"' :: body) rfl, ?_⟩
      · rw [← ofText_of_fromUTF8? hs] at hbody
        exact .string hbody
      · intro l' t ht hprefix
        rw [List.cons_append, ← hsplit] at hprefix
        have hlen := ht.form.literal_longest hscan hprefix
        simpa [hn] using hlen
      · rwa [List.cons_append, ← hsplit]
    · cases h
  · cases h
  · cases h

theorem pair_fits {c : UInt8} {t : Token} (hlayout : ¬Layout.Starts (b :: c :: rest))
    (ht : pair? b c = some t) : Lexeme.Fits b (c :: rest) ⟨t, 1⟩ := by
  obtain ⟨hsymbol, htext, hb, hc⟩ := pair?_eq_some ht
  refine ⟨[c], rest, rfl, rfl, ?_, ?_, apart_of_last [b] hc.1, hlayout⟩
  · rw [← htext]
    exact .symbol hsymbol
  · intro l' t' ht' hprefix
    rcases ht'.form.punctuation hb hprefix with hlen | ⟨hlen, -⟩
    · exact Nat.le_succ_of_le hlen
    · exact Nat.le_of_eq hlen

/-- A symbol of one byte is the longest lexeme where no symbol of two begins. -/
theorem single_fits {t : Token} (hlayout : ¬Layout.Starts (b :: rest))
    (hpair : rest.head?.bind (pair? b) = none) (ht : single? b = some t) :
    Lexeme.Fits b rest ⟨t, 0⟩ := by
  obtain ⟨hsymbol, htext, hb⟩ := single?_eq_some ht
  refine ⟨[], rest, rfl, rfl, ?_, ?_, apart_of_last [] hb.1, hlayout⟩
  · rw [← htext]
    exact .symbol hsymbol
  · intro l' t' ht' hprefix
    rw [List.singleton_append] at hprefix
    rcases ht'.form.punctuation hb hprefix with hlen | ⟨-, c, t'', hc, ht''⟩
    · exact hlen
    · rw [hc, Option.bind_some, ht''] at hpair
      cases hpair

/-- Every lexeme that is read is the longest one, and denotes its token. -/
theorem lexeme_sound (hlayout : ¬Layout.Starts (b :: rest)) (h : lexeme b rest = .ok l) :
    l.Fits b rest := by
  unfold lexeme at h
  split at h
  · next t ht =>
    cases h
    obtain ⟨c, hc, hpair⟩ := Option.bind_eq_some_iff.mp ht
    obtain ⟨rest, rfl⟩ := List.head?_eq_some_iff.mp hc
    exact pair_fits hlayout hpair
  · next hpair =>
    split at h
    · next hdigit => exact number_fits hlayout hdigit h
    split at h
    · next hquote =>
      subst hquote
      exact stringLiteral_fits hlayout h
    split at h
    · next hword =>
      cases h
      exact word_fits hlayout hword
    split at h
    · next ht =>
      cases h
      exact single_fits hlayout hpair ht
    · cases h

end Lexeme

/-! ## The whole text -/

/-- A cursor moved over bytes stands behind them. -/
theorem advance_behind {c : Cursor} {before bs rest : List UInt8} (hrest : c.rest = bs ++ rest)
    (hpos : c.pos = Pos.behind before) :
    c.advance bs.length = ⟨rest, Pos.behind (before ++ bs)⟩ := by
  rw [Cursor.advance_eq, hrest, hpos, List.drop_left, List.take_left, Pos.behind_afterAll]

/-- What is read at the cursor splits the rest of the text. -/
theorem tokensFrom_sound {c : Cursor} {ts : List (Located Token)} (h : tokensFrom c = .ok ts) :
    ∀ {before : List UInt8}, c.pos = Pos.behind before → Splits before c.rest ts := by
  fun_induction tokensFrom c generalizing ts with
  | case1 => cases h
  | case2 c n hskip start =>
    rename_i hend
    intro before hpos
    cases h
    obtain ⟨gap, rest, hrest, rfl, hgap, -⟩ := Layout.skip_sound hskip
    have hstart : start = ⟨rest, Pos.behind (before ++ gap)⟩ := advance_behind hrest hpos
    rw [hstart] at hend
    obtain rfl : rest = [] := hend
    rw [hrest, List.append_nil]
    exact .done hgap
  | case3 => cases h
  | case4 c n hskip start b rest hrest₁ l hl =>
    rename_i ih
    intro before hpos
    obtain ⟨tokens, htokens, hts⟩ := bind_eq_ok.mp h
    obtain rfl := pure_eq_ok.mp hts
    obtain ⟨gap, rest', hrest, rfl, hgap, hstop⟩ := Layout.skip_sound hskip
    have hstart : start = ⟨rest', Pos.behind (before ++ gap)⟩ := advance_behind hrest hpos
    rw [hstart] at hrest₁ htokens ih ⊢
    obtain rfl : rest' = b :: rest := hrest₁
    obtain ⟨more, rest, rfl, hbehind, hdenotes, hmaximal⟩ := lexeme_sound hstop hl
    have hnext : Cursor.advance ⟨b :: (more ++ rest), Pos.behind (before ++ gap)⟩ (l.behind + 1) =
        ⟨rest, Pos.behind (before ++ gap ++ b :: more)⟩ := by
      rw [hbehind]
      exact advance_behind (show _ = (b :: more) ++ rest from rfl) rfl
    rw [hnext] at htokens ih
    rw [hrest]
    exact .token hgap hdenotes hmaximal (ih htokens rfl)

end Token

/-- The tokens of a source text split it into their lexemes and layout. -/
theorem tokenize_sound {source : String} {ts : List (Located Token)}
    (h : tokenize source = .ok ts) : Token.Splits [] (Byte.ofText source) ts :=
  Token.tokensFrom_sound h rfl

/-- Lexemes without a blank between them, an escape, a division next to a comment that closes late,
and a comment that the end of the text closes. -/
def neighbours : String := "x=2---\"a\\n\"\n/ /*/*/0.0//end"

def neighbourTokens : List (Located Token) := [
  ⟨.ident "x", ⟨1, 1⟩⟩, ⟨.equal, ⟨1, 2⟩⟩, ⟨.const (.int 2), ⟨1, 3⟩⟩, ⟨.decrement, ⟨1, 4⟩⟩,
  ⟨.minus, ⟨1, 6⟩⟩, ⟨.const (.string "a\n"), ⟨1, 7⟩⟩, ⟨.slash, ⟨2, 1⟩⟩,
  ⟨.const (.double .zero), ⟨2, 8⟩⟩]

theorem tokenize_sound_neighbours :
    tokenize neighbours = .ok neighbourTokens ∧
      Token.Splits [] (Byte.ofText neighbours) neighbourTokens := by
  have h : tokenize neighbours = .ok neighbourTokens := by decide +kernel
  exact ⟨h, tokenize_sound h⟩

/-! ## The order of the tokens -/

namespace Pos

/-- The first position comes before the second in a text. -/
def Before (p q : Pos) : Prop := p.line < q.line ∨ p.line = q.line ∧ p.column < q.column

theorem Before.trans {p q r : Pos} (hpq : p.Before q) (hqr : q.Before r) : p.Before r := by
  unfold Before at *
  omega

theorem Before.ne {p q : Pos} (h : p.Before q) : q ≠ p := by
  rintro rfl
  unfold Before at h
  omega

theorem before_after (p : Pos) (b : UInt8) : p.Before (p.after b) := by
  unfold after
  split
  · exact .inl (Nat.lt_succ_self _)
  · exact .inr ⟨rfl, Nat.lt_succ_self _⟩

/-- Places grow with every byte passed. -/
theorem before_afterAll (p : Pos) (b : UInt8) (bs : List UInt8) :
    p.Before (p.afterAll (b :: bs)) := by
  induction bs generalizing p b with
  | nil => exact p.before_after b
  | cons c bs ih => exact (p.before_after b).trans (ih (p.after b) c)

end Pos

namespace Token

/-- Every lexeme has a byte at least. -/
theorem Denotes.ne_nil {l : List UInt8} {t : Token} (h : Denotes l t) : l ≠ [] := by
  cases h.form with
  | word hword =>
    obtain ⟨b, more, rfl, -⟩ := hword
    exact List.cons_ne_nil _ _
  | numeral hwhole _ _ => simp [hwhole.1]
  | literal _ => exact List.cons_ne_nil _ _
  | single => exact List.cons_ne_nil _ _
  | pair _ => exact List.cons_ne_nil _ _

/-- The tokens of a text stand behind its bytes so far. -/
theorem Splits.exists_take {before bs : List UInt8} {ts : List (Located Token)}
    (h : Splits before bs ts) :
    ∀ t ∈ ts, ∃ k ≤ bs.length, t.pos = Pos.behind (before ++ bs.take k) := by
  induction h with
  | done _ => exact List.forall_mem_nil _
  | @token before gap lexeme rest t ts _ _ _ _ ih =>
    refine List.forall_mem_cons.mpr ⟨⟨gap.length, by simp, by simp⟩, fun u hu => ?_⟩
    obtain ⟨k, hk, hpos⟩ := ih u hu
    refine ⟨gap.length + (lexeme.length + k), by simp only [List.length_append]; omega, ?_⟩
    rw [hpos, List.take_length_add_append, List.take_length_add_append, List.append_assoc,
      List.append_assoc]

/-- Tokens come in the order of their places. -/
theorem Splits.pairwise_before {before bs : List UInt8} {ts : List (Located Token)}
    (h : Splits before bs ts) : ts.Pairwise fun t u => t.pos.Before u.pos := by
  induction h with
  | done _ => exact .nil
  | @token before gap lexeme rest t ts _ hdenotes _ hrest ih =>
    refine .cons (fun u hu => ?_) ih
    obtain ⟨k, -, hpos⟩ := hrest.exists_take u hu
    obtain ⟨b, more, rfl⟩ := List.exists_cons_of_ne_nil hdenotes.ne_nil
    rw [hpos, List.append_assoc (before ++ gap), ← Pos.behind_afterAll _ (before ++ gap)]
    exact Pos.before_afterAll _ b _

end Token

end MiniC
