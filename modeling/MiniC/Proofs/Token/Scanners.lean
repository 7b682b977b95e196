import Mathlib.Tactic.SplitIfs
import Mathlib.Tactic.Tauto
import MiniC.Proofs.Token.Spelling
import MiniC.Token.Lexer

/-!
# What the scanners measure

The lexer asks one scanner for each kind of lexeme how far it goes, and another one for the layout
in front of it. Each of them stops where the grammar of its kind says.
-/

namespace MiniC

/-! ## Bytes and characters -/

namespace Byte

theorem val_ofUInt8 (b : UInt8) : (Char.ofUInt8 b).val = b.toUInt32 := rfl

/-- A byte is given back by the character it spells. -/
theorem toUInt8_ofUInt8 (b : UInt8) : (Char.ofUInt8 b).toUInt8 = b := by
  simp [Char.toUInt8, val_ofUInt8]

theorem eq_ascii {b : UInt8} {c : Char} (h : Char.ofUInt8 b = c) : b = ascii c := by
  rw [← h, ascii, toUInt8_ofUInt8]

/-- Words consist of ASCII characters. -/
theorem toNat_lt_of_isWordPart {b : UInt8} (h : isWordPart b = true) : b.toNat < 128 := by
  have hz : (ascii 'z').toNat = 122 := rfl
  have hZ : (ascii 'Z').toNat = 90 := rfl
  have hnine : (ascii '9').toNat = 57 := rfl
  have hline : (ascii '_').toNat = 95 := rfl
  simp only [isWordPart, isWordStart, isLetter, isDigit, Bool.or_eq_true, Bool.and_eq_true,
    decide_eq_true_eq, UInt8.le_iff_toNat_le, ← UInt8.toNat_inj] at h
  omega

/-- What may begin a word may also continue it. -/
theorem isWordPart_of_isWordStart {b : UInt8} (h : isWordStart b = true) : isWordPart b = true := by
  rw [isWordPart, h, Bool.true_or]

theorem isWordPart_of_isDigit {b : UInt8} (h : isDigit b = true) : isWordPart b = true := by
  rw [isWordPart, h, Bool.or_true]

/-- No word begins with a digit. -/
theorem not_isWordStart_of_isDigit {b : UInt8} (h : isDigit b = true) : isWordStart b = false := by
  have ha : (ascii 'a').toNat = 97 := rfl
  have hA : (ascii 'A').toNat = 65 := rfl
  have hnine : (ascii '9').toNat = 57 := rfl
  have hline : (ascii '_').toNat = 95 := rfl
  rw [← Bool.not_eq_true]
  simp only [isWordStart, isLetter, isDigit, Bool.or_eq_true, Bool.and_eq_true,
    decide_eq_true_eq, UInt8.le_iff_toNat_le, ← UInt8.toNat_inj] at h ⊢
  omega

/-- An ASCII character is encoded by its own byte. -/
theorem utf8EncodeChar_ofUInt8 {b : UInt8} (h : b.toNat < 128) :
    String.utf8EncodeChar (Char.ofUInt8 b) = [b] := by
  have hle : b.toNat ≤ 127 := by omega
  simp [String.utf8EncodeChar, val_ofUInt8, hle]

theorem toNat_ascii {c : Char} (h : c.toNat < 128) : (ascii c).toNat = c.toNat :=
  Nat.mod_eq_of_lt (Nat.lt_trans h (by decide))

/-- An ASCII character is one byte. -/
theorem utf8EncodeChar_of_lt {c : Char} (h : c.toNat < 128) :
    String.utf8EncodeChar c = [ascii c] := by
  have hle : c.val.toNat ≤ 127 := Nat.le_of_lt_succ h
  rw [String.utf8EncodeChar, if_pos hle]
  rfl

/-- The bytes of any other character are not ASCII. -/
theorem le_toNat_of_mem_utf8EncodeChar {c : Char} {b : UInt8} (h : 128 ≤ c.toNat)
    (hb : b ∈ String.utf8EncodeChar c) : 128 ≤ b.toNat := by
  have hbyte : ∀ n, 128 ≤ n → n < 256 → 128 ≤ (UInt8.ofNat n).toNat := by
    intro n hle hlt
    rw [UInt8.toNat_ofNat', Nat.mod_eq_of_lt hlt]
    exact hle
  have hv : c.val.toNat = c.toNat := rfl
  unfold String.utf8EncodeChar at hb
  dsimp only at hb
  rw [hv, if_neg (Nat.not_le_of_lt h)] at hb
  split at hb
  · simp only [List.mem_cons, List.not_mem_nil, or_false] at hb
    rcases hb with rfl | rfl <;> exact hbyte _ (by omega) (by omega)
  split at hb
  · simp only [List.mem_cons, List.not_mem_nil, or_false] at hb
    rcases hb with rfl | rfl | rfl <;> exact hbyte _ (by omega) (by omega)
  · simp only [List.mem_cons, List.not_mem_nil, or_false] at hb
    rcases hb with rfl | rfl | rfl | rfl <;> exact hbyte _ (by omega) (by omega)

/-- The bytes of a character are no bytes of another one that is ASCII. -/
theorem ne_ascii_of_mem_utf8EncodeChar {a c : Char} {b : UInt8} (ha : a.toNat < 128) (hne : c ≠ a)
    (hb : b ∈ String.utf8EncodeChar c) : b ≠ ascii a := by
  rintro rfl
  rcases Nat.lt_or_ge c.toNat 128 with hc | hc
  · rw [utf8EncodeChar_of_lt hc, List.mem_singleton] at hb
    have htoNat := congrArg UInt8.toNat hb
    rw [toNat_ascii ha, toNat_ascii hc] at htoNat
    exact hne (Char.toNat_inj.mp htoNat).symm
  · have hle := le_toNat_of_mem_utf8EncodeChar hc hb
    rw [toNat_ascii ha] at hle
    omega

/-- The bytes of a concatenation are those of its parts. -/
theorem ofText_append (s t : String) : ofText (s ++ t) = ofText s ++ ofText t := by
  simp only [ofText, String.toByteArray_append, ByteArray.data_append, Array.toList_append]

theorem ofText_ofList (cs : List Char) :
    ofText (String.ofList cs) = cs.flatMap String.utf8EncodeChar := by
  rw [ofText, String.toByteArray_ofList, List.utf8Encode, List.data_toByteArray]

/-- ASCII bytes are the bytes of their text. -/
theorem ofText_toText {bs : List UInt8} (h : ∀ b ∈ bs, b.toNat < 128) :
    ofText (toText bs) = bs := by
  have hflat : (bs.map Char.ofUInt8).flatMap String.utf8EncodeChar = bs := by
    induction bs with
    | nil => rfl
    | cons b bs ih =>
      rw [List.map_cons, List.flatMap_cons, utf8EncodeChar_ofUInt8 (h b (by simp)),
        ih fun c hc => h c (by simp [hc])]
      rfl
  rw [toText, ofText_ofList, hflat]

theorem fromUTF8?_ofText (s : String) : String.fromUTF8? ⟨(ofText s).toArray⟩ = some s := by
  have hbytes : (⟨(ofText s).toArray⟩ : ByteArray) = s.toByteArray := by simp [ofText]
  rw [hbytes, String.fromUTF8?, dif_pos s.isValidUTF8]
  rfl

/-- Bytes that decode to a text are the bytes of that text. -/
theorem ofText_of_fromUTF8? {bs : List UInt8} {s : String}
    (h : String.fromUTF8? ⟨bs.toArray⟩ = some s) : ofText s = bs := by
  unfold String.fromUTF8? at h
  split at h
  · cases h
    rfl
  · cases h

end Byte

open Byte

/-! ## Layout -/

namespace Layout

/-- Layout starts with a blank, a hash sign, or a slash followed by a slash or a star. -/
theorem starts_cons {b : UInt8} {rest : List UInt8} :
    Starts (b :: rest) ↔ isBlank b = true ∨ b = ascii '#' ∨
      b = ascii '/' ∧ (rest.head? = some (ascii '/') ∨ rest.head? = some (ascii '*')) := by
  cases rest with
  | nil => simp [Starts, lineOpeners, blockOpener, @eq_comm _ b]
  | cons c rest =>
    simp only [Starts, lineOpeners, blockOpener, List.head?_cons, Option.mem_def,
      Option.some.injEq, exists_eq_left', List.mem_cons, List.not_mem_nil, or_false,
      exists_eq_or_imp, exists_eq_left, List.cons_prefix_cons, List.nil_prefix, and_true]
    rw [eq_comm (a := ascii '/'), eq_comm (a := ascii '*'), eq_comm (a := ascii '/') (b := c),
      eq_comm (a := ascii '#')]
    tauto

/-- The bytes end what the mode has opened, and go on with layout up to `rest`. -/
def Continues (rest : List UInt8) : Mode → List UInt8 → Prop
  | .blank, bs => Gap bs rest
  | .lineComment, bs => ∃ body gap, bs = body ++ gap ∧ Pos.newline ∉ body ∧
      (∀ b ∈ (gap ++ rest).head?, b = Pos.newline) ∧ Gap gap rest
  | .blockComment _, bs => ∃ body gap, bs = body ++ blockCloser ++ gap ∧
      ¬blockCloser <:+: body ∧ Gap gap rest

section Continues

variable {rest bs : List UInt8} {b : UInt8} {start : Nat}

/-- A line comment and the gap behind it are a gap. -/
theorem Gap.lineComment {opener : List UInt8} (hopener : opener ∈ lineOpeners)
    (h : Continues rest .lineComment bs) : Gap (opener ++ bs) rest := by
  obtain ⟨body, gap, rfl, hbody, hend, hgap⟩ := h
  rw [← List.append_assoc]
  exact .line hopener hbody hend hgap

/-- A block comment and the gap behind it are a gap. -/
theorem Gap.blockComment (h : Continues rest (.blockComment start) bs) :
    Gap (blockOpener ++ bs) rest := by
  obtain ⟨body, gap, rfl, hbody, hgap⟩ := h
  rw [← List.append_assoc, ← List.append_assoc]
  exact .block hbody hgap

theorem continues_newline (h : Gap bs rest) :
    Continues rest .lineComment (Pos.newline :: bs) :=
  ⟨[], Pos.newline :: bs, rfl, by simp, by simp, .blank rfl h⟩

theorem continues_line (hb : b ≠ Pos.newline) (h : Continues rest .lineComment bs) :
    Continues rest .lineComment (b :: bs) := by
  obtain ⟨body, gap, rfl, hbody, hend, hgap⟩ := h
  exact ⟨b :: body, gap, rfl, by simp [hbody, hb.symm], hend, hgap⟩

theorem continues_close (h : Gap bs rest) :
    Continues rest (.blockComment start) (blockCloser ++ bs) :=
  ⟨[], bs, rfl, by simp [blockCloser], h⟩

/-- Inside a block comment, any byte that does not begin the closer is passed over. -/
theorem continues_block (hb : ¬blockCloser <+: b :: bs)
    (h : Continues rest (.blockComment start) bs) :
    Continues rest (.blockComment start) (b :: bs) := by
  obtain ⟨body, gap, rfl, hbody, hgap⟩ := h
  refine ⟨b :: body, gap, rfl, fun hinfix => ?_, hgap⟩
  rcases List.infix_cons_iff.mp hinfix with hhere | hinfix
  · rw [List.append_assoc, ← List.cons_append] at hb
    exact hb (hhere.trans (List.prefix_append _ _))
  · exact hbody hinfix

end Continues

/-- Of `bs` some layout has been skipped, as far as there is any. -/
def Skips (n : Nat) (mode : Mode) (bs : List UInt8) (m : Nat) : Prop :=
  ∃ l rest, bs = l ++ rest ∧ m = n + l.length ∧ Continues rest mode l ∧ ¬Starts rest

/-- A step of the scanner: if the bytes `k` lead from one mode to another, what is skipped from the
second is skipped from the first with `k` in front. -/
theorem Skips.step {n m : Nat} {mode mode' : Mode} {bs : List UInt8} (k : List UInt8)
    (h : Skips (n + k.length) mode' bs m)
    (hmode : ∀ l rest, bs = l ++ rest → Continues rest mode' l → Continues rest mode (k ++ l)) :
    Skips n mode (k ++ bs) m := by
  obtain ⟨l, rest, rfl, rfl, hl, hstop⟩ := h
  refine ⟨k ++ l, rest, (List.append_assoc _ _ _).symm, ?_, hmode l rest rfl hl, hstop⟩
  rw [List.length_append, Nat.add_assoc]

theorem skips_nothing {n : Nat} {bs : List UInt8} (h : ¬Starts bs) : Skips n .blank bs n :=
  ⟨[], bs, rfl, rfl, .nil, h⟩

theorem not_starts_nil : ¬Starts [] := by simp [Starts, lineOpeners, blockOpener]

/-- What the scanner skips is a gap for the mode it starts in, and no layout starts behind it. -/
theorem skipFrom_sound {n m : Nat} {mode : Mode} {bs : List UInt8}
    (h : skipFrom n mode bs = .ok m) : Skips n mode bs m := by
  fun_induction skipFrom n mode bs with
  | case1 n =>
    cases h
    exact skips_nothing not_starts_nil
  | case2 n b rest hb ih => exact (ih h).step [b] fun l _ _ hl => .blank hb hl
  | case3 n rest hb ih =>
    exact (ih h).step [_] fun l _ _ hl => Gap.lineComment (by simp [lineOpeners]) hl
  | case4 n hb hhash =>
    cases h
    exact skips_nothing (by simp [starts_cons, hb, hhash])
  | case5 n rest hb hhash ih =>
    exact (ih h).step [_, _] fun l _ _ hl => Gap.lineComment (by simp [lineOpeners]) hl
  | case6 n rest hb hhash hne ih => exact (ih h).step [_, _] fun l _ _ hl => Gap.blockComment hl
  | case7 n c rest hslash hstar hb hhash =>
    cases h
    exact skips_nothing (by simp [starts_cons, hb, hhash, hslash, hstar])
  | case8 n b rest hb hhash hslash =>
    cases h
    exact skips_nothing (by simp [starts_cons, hb, hhash, hslash])
  | case9 n =>
    cases h
    exact ⟨[], [], rfl, rfl, ⟨[], [], rfl, by simp, by simp, .nil⟩, not_starts_nil⟩
  | case10 n b rest ih =>
    by_cases hb : b = Pos.newline
    · rw [if_pos hb] at ih h
      exact (ih h).step [b] fun l _ _ hl => hb ▸ continues_newline hl
    · rw [if_neg hb] at ih h
      exact (ih h).step [b] fun l _ _ hl => continues_line hb hl
  | case11 => cases h
  | case12 => cases h
  | case13 n start rest' ih => exact (ih h).step [_, _] fun l _ _ hl => continues_close hl
  | case14 n start c rest' hslash ih =>
    refine (ih h).step [_] fun l rest heq hl => continues_block ?_ hl
    cases l with
    | nil => simp [blockCloser]
    | cons x l =>
      obtain ⟨rfl, -⟩ := List.cons.inj heq
      simp [blockCloser, Ne.symm hslash]
  | case15 n start b rest hstar ih =>
    exact (ih h).step [b] fun l _ _ hl =>
      continues_block (fun hp => hstar (List.cons_prefix_cons.mp hp).1.symm) hl

/-- The layout at the start of some bytes, as far as it goes. -/
theorem skip_sound {n : Nat} {bs : List UInt8} (h : skip bs = .ok n) :
    ∃ gap rest, bs = gap ++ rest ∧ n = gap.length ∧ Gap gap rest ∧ ¬Starts rest := by
  obtain ⟨gap, rest, hbs, hn, hgap, hstop⟩ := skipFrom_sound h
  exact ⟨gap, rest, hbs, by rw [hn, Nat.zero_add], hgap, hstop⟩

end Layout

/-! ## String literals -/

namespace StringLiteral

/-- The escapes are those of the table. -/
theorem escape?_eq_some {e b : UInt8} : escape? e = some b ↔ (e, b) ∈ escapes := by
  constructor
  · intro h
    unfold escape? at h
    split_ifs at h with hn ht hr hquote hbackslash
    all_goals
      cases h
      simp [escapes, *]
  · intro h
    simp only [escapes, List.mem_cons, Prod.mk.injEq, List.not_mem_nil, or_false] at h
    rcases h with ⟨rfl, rfl⟩ | ⟨rfl, rfl⟩ | ⟨rfl, rfl⟩ | ⟨rfl, rfl⟩ | ⟨rfl, rfl⟩ <;> rfl

/-- A scan that is closed after a byte was pushed was closed before. -/
theorem Scan.push_eq_closed {b : UInt8} {k n : Nat} {content : List UInt8} {s : Scan} :
    s.push b k = .closed content n ↔
      ∃ content' n', s = .closed content' n' ∧ content = b :: content' ∧ n = n' + k := by
  cases s <;> simp [Scan.push, eq_comm]

/-- What a literal denotes is behind its opening quote, up to the quote that closes it. -/
theorem scan_sound {bs content : List UInt8} {n : Nat} (h : scan bs = .closed content n) :
    ∃ body rest, bs = body ++ ascii '"' :: rest ∧ n = body.length + 1 ∧ Decodes body content := by
  fun_induction scan bs generalizing content n with
  | case1 => cases h
  | case2 rest =>
    cases h
    exact ⟨[], rest, rfl, rfl, .nil⟩
  | case3 => cases h
  | case4 => cases h
  | case5 e rest b hescape _ _ ih =>
    obtain ⟨content, n, hrest, rfl, rfl⟩ := Scan.push_eq_closed.mp h
    obtain ⟨body, rest, rfl, rfl, hbody⟩ := ih hrest
    exact ⟨ascii '\\' :: e :: body, rest, rfl, by simp, .escape (escape?_eq_some.mp hescape) hbody⟩
  | case6 => cases h
  | case7 b rest hquote hnewline hbackslash ih =>
    obtain ⟨content, n, hrest, rfl, rfl⟩ := Scan.push_eq_closed.mp h
    obtain ⟨body, rest, rfl, rfl, hbody⟩ := ih hrest
    exact ⟨b :: body, rest, rfl, rfl, .plain hquote hbackslash hnewline hbody⟩

/-- A body that decodes is scanned to its content, up to and with the closing quote. -/
theorem scan_complete {body content : List UInt8} (h : Decodes body content) (rest : List UInt8) :
    scan (body ++ ascii '"' :: rest) = .closed content (body.length + 1) := by
  induction h with
  | nil =>
    unfold scan
    exact if_pos rfl
  | @plain b body content hquote hbackslash hnewline _ ih =>
    rw [List.cons_append]
    unfold scan
    rw [if_neg hquote, if_neg hnewline, if_neg hbackslash, ih]
    rfl
  | escape hescape _ ih =>
    rw [List.cons_append, List.cons_append]
    unfold scan
    rw [if_neg (by decide), if_neg (by decide), if_pos rfl]
    simp only [escape?_eq_some.mpr hescape, ih]
    rfl

end StringLiteral

/-! ## Punctuation and words -/

/-- In a form that evaluates. -/
theorem isWord_of_all {w : List UInt8} {b : UInt8} {more : List UInt8} (hw : w = b :: more)
    (hb : isWordStart b = true) (hmore : more.all isWordPart = true) : IsWord w :=
  ⟨b, more, hw, hb, List.all_eq_true.mp hmore⟩

/-- Every byte of a word, the first one included, may continue a word. -/
theorem IsWord.isWordPart {w : List UInt8} (h : IsWord w) : ∀ b ∈ w, isWordPart b = true := by
  obtain ⟨b, more, rfl, hb, hmore⟩ := h
  exact List.forall_mem_cons.mpr ⟨isWordPart_of_isWordStart hb, hmore⟩

namespace Token

/-- No byte of a word, a number or a string starts with it. -/
def IsPunctuation (b : UInt8) : Prop :=
  isWordPart b = false ∧ b ≠ ascii '"'

instance (b : UInt8) : Decidable (IsPunctuation b) := inferInstanceAs (Decidable (_ ∧ _))

/-- A symbol of two bytes is spelled by them, and both are punctuation. -/
theorem pair?_eq_some {a b : UInt8} {t : Token} (h : pair? a b = some t) :
    t.IsSymbol ∧ ofText t.text = [a, b] ∧ IsPunctuation a ∧ IsPunctuation b := by
  unfold pair? at h
  split at h
  case h_9 => cases h
  all_goals
    next ha hb =>
      cases h
      rw [eq_ascii ha, eq_ascii hb]
      exact ⟨trivial, by decide, by decide, by decide⟩

theorem single?_eq_some {a : UInt8} {t : Token} (h : single? a = some t) :
    t.IsSymbol ∧ ofText t.text = [a] ∧ IsPunctuation a := by
  unfold single? at h
  split at h
  case h_15 => cases h
  all_goals
    next ha =>
      cases h
      rw [eq_ascii ha]
      exact ⟨trivial, by decide, by decide⟩

/-- A symbol is a word, or one or two bytes of punctuation. -/
theorem IsSymbol.spelling {t : Token} (h : t.IsSymbol) :
    IsWord (ofText t.text) ∨ (∃ a, ofText t.text = [a] ∧ single? a = some t) ∨
      ∃ a b, ofText t.text = [a, b] ∧ pair? a b = some t := by
  cases t with
  | const c => cases h
  | ident x => cases h
  | type ty => cases ty <;> exact .inl (isWord_of_all rfl (by decide) (by decide))
  | kwIf | kwElse | kwWhile | kwFor | kwReturn =>
    exact .inl (isWord_of_all rfl (by decide) (by decide))
  | increment | decrement | andAnd | orOr | equalEqual | notEqual | lessEqual | greaterEqual =>
    exact .inr (.inr ⟨_, _, rfl, by decide⟩)
  | _ => exact .inr (.inl ⟨_, rfl, by decide⟩)

/-- A word that is not reserved is an identifier. -/
theorem ofWord_of_not_reserved {x : String} (h : x ∉ reserved) : ofWord x = ident x := by
  simp only [reserved, List.mem_cons, List.not_mem_nil, or_false, not_or] at h
  simp only [ofWord, h, if_false]

/-- A reserved word denotes the token it is read as. -/
theorem ofWord_denotes_reserved {x : String} (h : x ∈ reserved) :
    Denotes (ofText x) (ofWord x) := by
  simp only [reserved, List.mem_cons, List.not_mem_nil, or_false] at h
  rcases h with rfl | rfl | rfl | rfl | rfl | rfl | rfl | rfl | rfl | rfl | rfl | rfl
  · exact @Denotes.symbol (.type .bool) trivial
  · exact @Denotes.symbol (.type .int) trivial
  · exact @Denotes.symbol (.type .double) trivial
  · exact @Denotes.symbol (.type .string) trivial
  · exact @Denotes.symbol (.type .void) trivial
  · exact @Denotes.truth true
  · exact @Denotes.truth false
  · exact @Denotes.symbol .kwIf trivial
  · exact @Denotes.symbol .kwElse trivial
  · exact @Denotes.symbol .kwWhile trivial
  · exact @Denotes.symbol .kwFor trivial
  · exact @Denotes.symbol .kwReturn trivial

/-- Every word is a lexeme. -/
theorem ofWord_denotes {w : List UInt8} (hw : IsWord w) : Denotes w (ofWord (toText w)) := by
  have hbytes : ofText (toText w) = w :=
    ofText_toText fun b hb => toNat_lt_of_isWordPart (hw.isWordPart b hb)
  by_cases hreserved : toText w ∈ reserved
  · have h := ofWord_denotes_reserved hreserved
    rwa [hbytes] at h
  · rw [ofWord_of_not_reserved hreserved]
    have h := @Denotes.ident (toText w) (by rwa [hbytes]) hreserved
    rwa [hbytes] at h

end Token

end MiniC
