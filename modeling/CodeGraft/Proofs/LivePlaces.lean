import CodeGraft.Proofs.LiveCode

/-!
# Live places

A reader who starts in the code passes over string literals and comments as a whole, and over everything
else character by character; the places that he comes to are live. The closer of a delimiter is the first
live place up to which as many delimiters were closed as opened. Behind a delimiter that is nested in
another the live places are the same, so its closer stands in front of the other one's.
-/

namespace CodeGraft

open Text

/-- What stands in a string literal in front of its end: characters that do not end it, and pairs of a
backslash and any character. -/
inductive LiteralBody (quote : Char) : Text → Prop
  | nil : LiteralBody quote []
  | char {c : Char} {body : Text} (hescape : c ≠ '\\') (hquote : c ≠ quote)
      (hline : c = '\n' → quote = '`') (h : LiteralBody quote body) : LiteralBody quote (c :: body)
  | escape {body : Text} (c : Char) (h : LiteralBody quote body) :
      LiteralBody quote ('\\' :: c :: body)

def CommentStyle.lineMarks : CommentStyle → List Text
  | .slashes => ["//"]
  | .hash => ["#"]
  | .none => []

def OpensComment (style : CommentStyle) (text : Text) : Prop :=
  (∃ mark ∈ style.lineMarks, mark <+: text) ∨ (style = .slashes ∧ "/*".toList <+: text)

/-- A reader who is in the code in front of `front` passes over it and is in the code again, in front of
`behind`. A literal that is not a template may end with its line, and so does a line comment; the line feed
belongs to neither. -/
inductive ReadsOver (style : CommentStyle) : (front behind : Text) → Prop
  | nil (behind : Text) : ReadsOver style [] behind
  | char {c : Char} {front behind : Text} (hquote : isQuote c = false)
      (hcomment : ¬OpensComment style (c :: (front ++ behind))) (h : ReadsOver style front behind) :
      ReadsOver style (c :: front) behind
  | closed {quote : Char} {body front behind : Text} (hquote : isQuote quote = true)
      (hbody : LiteralBody quote body) (h : ReadsOver style front behind) :
      ReadsOver style (quote :: (body ++ quote :: front)) behind
  | unclosed {quote : Char} {body front behind : Text} (hquote : quote = '\'' ∨ quote = '"')
      (hbody : LiteralBody quote body) (hline : (front ++ behind).head? = some '\n')
      (h : ReadsOver style front behind) : ReadsOver style (quote :: (body ++ front)) behind
  | lineComment {mark body front behind : Text} (hmark : mark ∈ style.lineMarks) (hbody : '\n' ∉ body)
      (hline : (front ++ behind).head? = some '\n') (h : ReadsOver style front behind) :
      ReadsOver style (mark ++ (body ++ front)) behind
  | blockComment {body front behind : Text} (hstyle : style = .slashes)
      (hbody : ¬"*/".toList <:+: body ++ ['*']) (h : ReadsOver style front behind) :
      ReadsOver style ('/' :: '*' :: (body ++ '*' :: '/' :: front)) behind

/-- The offset is one of a character that a reader who starts at `start` comes to outside of literals and
comments. -/
def Live (style : CommentStyle) (text : Text) (start offset : Nat) : Prop :=
  ∃ front c behind, text.drop start = front ++ c :: behind ∧ offset = start + front.length ∧
    ReadsOver style front (c :: behind)

namespace ReadMode

variable {style : CommentStyle} {mode : ReadMode} {quote c : Char} {text front body behind : Text}

def after (style : CommentStyle) : ReadMode → (front behind : Text) → ReadMode
  | mode, [], _ => mode
  | mode, c :: front, behind => after style (mode.next style c (front ++ behind).head?) front behind

theorem after_append (mode : ReadMode) (front more behind : Text) :
    after style mode (front ++ more) behind =
      after style (after style mode front (more ++ behind)) more behind := by
  induction front generalizing mode with
  | nil => rfl
  | cons c front ih => rw [List.cons_append, after, after, ih, List.append_assoc]

/-- A reader is in the code in front of a text; it is so too in front of the line feed that ends a literal
or a comment. -/
def InCode (mode : ReadMode) (text : Text) : Prop :=
  mode = .code ∨
    (text.head? = some '\n' ∧ (mode = .lineComment ∨ mode = .literal '\'' ∨ mode = .literal '"'))

instance (mode : ReadMode) (text : Text) : Decidable (mode.InCode text) :=
  inferInstanceAs (Decidable (_ ∨ _))

theorem inCode_code (text : Text) : code.InCode text := Or.inl rfl

theorem inCode_lineComment (h : text.head? = some '\n') : lineComment.InCode text :=
  Or.inr ⟨h, Or.inl rfl⟩

theorem inCode_literal (hquote : quote = '\'' ∨ quote = '"') (h : text.head? = some '\n') :
    (literal quote).InCode text := by
  rcases hquote with rfl | rfl
  · exact Or.inr ⟨h, Or.inr (Or.inl rfl)⟩
  · exact Or.inr ⟨h, Or.inr (Or.inr rfl)⟩

theorem InCode.eq_code (h : mode.InCode (c :: text)) (hc : c ≠ '\n') : mode = .code := by
  rcases h with h | ⟨hline, -⟩
  · exact h
  · exact absurd (Option.some.inj hline) hc

theorem opensComment_cons_iff : OpensComment style (c :: text) ↔
    (style = .slashes ∧ c = '/' ∧ (text.head? = some '/' ∨ text.head? = some '*')) ∨
      (style = .hash ∧ c = '#') := by
  have hsecond : ∀ x : Char, [x] <+: text ↔ text.head? = some x := by
    intro x
    cases text with
    | nil => simp
    | cons y text => simp [eq_comm]
  cases style with
  | slashes =>
    have hmark : ∀ x : Char, ['/', x] <+: c :: text ↔ c = '/' ∧ text.head? = some x := by
      intro x
      rw [List.cons_prefix_cons, hsecond, eq_comm]
    simp [OpensComment, CommentStyle.lineMarks, hmark, and_or_left]
  | hash => simp [OpensComment, CommentStyle.lineMarks, List.cons_prefix_cons, eq_comm]
  | none => simp [OpensComment, CommentStyle.lineMarks]

theorem ne_feed_of_opensComment (h : OpensComment style (c :: text)) : c ≠ '\n' := by
  rintro rfl
  simp [opensComment_cons_iff] at h

theorem ne_feed_of_isQuote (h : isQuote c = true) : c ≠ '\n' := by
  rintro rfl
  cases h

theorem exists_cons_of_mem_lineMarks {mark : Text} (h : mark ∈ style.lineMarks) :
    ∃ x rest, mark = x :: rest ∧ x ≠ '\n' := by
  cases style with
  | slashes => exact ⟨'/', ['/'], List.mem_singleton.mp h, by decide⟩
  | hash => exact ⟨'#', [], List.mem_singleton.mp h, by decide⟩
  | none => cases h

theorem next_code_of_quote (hquote : isQuote c = true) (ahead : Option Char) :
    ReadMode.code.next style c ahead = .literal c := by
  rw [next, if_pos hquote]

/-- A character that opens neither a literal nor a comment leaves the reader in the code. -/
theorem InCode.next_eq_code (h : mode.InCode (c :: text)) (hquote : isQuote c = false)
    (hcomment : ¬OpensComment style (c :: text)) : mode.next style c text.head? = .code := by
  rcases h with rfl | ⟨hline, h⟩
  · rw [opensComment_cons_iff] at hcomment
    simp only [not_or, not_and] at hcomment
    rw [next, if_neg (by simp [hquote]), if_neg (fun hs => (hcomment.1 hs.1 hs.2.1).1 hs.2.2),
      if_neg (fun hs => (hcomment.1 hs.1 hs.2.1).2 hs.2.2), if_neg (fun hs => hcomment.2 hs.1 hs.2)]
  · obtain rfl : c = '\n' := Option.some.inj hline
    rcases h with rfl | rfl | rfl
    · rfl
    · rfl
    · rfl

theorem after_literal (h : LiteralBody quote body) (behind : Text) :
    after style (.literal quote) body behind = .literal quote := by
  induction h with
  | nil => rfl
  | @char c _ hescape hquote hline _ ih =>
    have hstays : ∀ ahead, (ReadMode.literal quote).next style c ahead = .literal quote := by
      intro ahead
      rw [next, if_neg hescape, if_neg hquote, if_neg fun h => h.2 (hline h.1)]
    rw [after, hstays, ih]
  | escape c _ ih =>
    rw [after, after]
    exact ih

theorem after_lineComment (h : '\n' ∉ body) (behind : Text) :
    after style .lineComment body behind = .lineComment := by
  induction body with
  | nil => rfl
  | cons c body ih =>
    rw [List.mem_cons, not_or] at h
    rw [after, next, if_neg (Ne.symm h.1), ih h.2]

theorem after_lineMark {mark : Text} (h : mark ∈ style.lineMarks) (behind : Text) :
    after style .code mark behind = .lineComment := by
  cases style with
  | slashes =>
    obtain rfl := List.mem_singleton.mp h
    rfl
  | hash =>
    obtain rfl := List.mem_singleton.mp h
    rfl
  | none => cases h

theorem head?_ne_slash (h : ¬"*/".toList <:+: '*' :: (body ++ ['*'])) (front : Text) :
    (body ++ '*' :: front).head? ≠ some '/' := by
  cases body with
  | nil => simp
  | cons c body =>
    rw [List.cons_append, List.head?_cons]
    intro heq
    obtain rfl := Option.some.inj heq
    exact h ⟨[], body ++ ['*'], rfl⟩

theorem after_blockComment (h : ¬"*/".toList <:+: body ++ ['*']) (front behind : Text) :
    after style .blockComment (body ++ '*' :: '/' :: front) behind = after style .code front behind := by
  induction body with
  | nil => rfl
  | cons c body ih =>
    have hrest : ¬"*/".toList <:+: body ++ ['*'] := fun hin => h (hin.trans (List.suffix_cons ..).isInfix)
    have hstays : ∀ more, ReadMode.blockComment.next style c (body ++ '*' :: more).head? =
        .blockComment := by
      intro more
      rw [next, if_neg]
      rintro ⟨rfl, hahead⟩
      exact head?_ne_slash h more hahead
    rw [List.cons_append, after, List.append_assoc, List.cons_append, hstays, ih hrest]

end ReadMode

open ReadMode

variable {style : CommentStyle} {mode : ReadMode} {quote c : Char}
  {text front body behind : Text} {d : Delimiter} {start offset i j n : Nat}

/-! ### The reader follows the modes -/

theorem ReadsOver.inCode (h : ReadsOver style front behind) (hmode : mode.InCode (front ++ behind)) :
    (after style mode front behind).InCode behind := by
  induction h generalizing mode with
  | nil => exact hmode
  | char hquote hcomment _ ih => exact ih (Or.inl (hmode.next_eq_code hquote hcomment))
  | @closed quote body front behind hquote hbody _ ih =>
    have hends : ∀ ahead, (ReadMode.literal quote).next style quote ahead = .code := by
      have hescape : quote ≠ '\\' := by
        rintro rfl
        cases hquote
      intro ahead
      rw [next, if_neg hescape, if_pos rfl]
    rw [hmode.eq_code (ne_feed_of_isQuote hquote), after, next_code_of_quote hquote, after_append,
      after_literal hbody, after, hends]
    exact ih (inCode_code _)
  | @unclosed quote body front behind hquote hbody hline _ ih =>
    have hopens : isQuote quote = true := by
      rcases hquote with rfl | rfl <;> decide
    rw [hmode.eq_code (ne_feed_of_isQuote hopens), after, next_code_of_quote hopens, after_append,
      after_literal hbody]
    exact ih (inCode_literal hquote hline)
  | @lineComment mark body front behind hmark hbody hline _ ih =>
    obtain ⟨x, rest, rfl, hx⟩ := exists_cons_of_mem_lineMarks hmark
    rw [hmode.eq_code hx, after_append, after_lineMark hmark, after_append, after_lineComment hbody]
    exact ih (inCode_lineComment hline)
  | blockComment hstyle hbody _ ih =>
    subst hstyle
    rw [hmode.eq_code (by decide), after, after]
    change (after .slashes .blockComment _ _).InCode _
    rw [after_blockComment hbody]
    exact ih (inCode_code _)

/-- A literal that the reader leaves is closed by its quote or, if it is no template, by the end of its
line. -/
theorem literal_cases (hquote : isQuote quote = true)
    (h : (after style (.literal quote) front behind).InCode behind) :
    (∃ body rest, front = body ++ quote :: rest ∧ LiteralBody quote body ∧
      (after style .code rest behind).InCode behind) ∨
    ∃ body rest, front = body ++ rest ∧ LiteralBody quote body ∧ (quote = '\'' ∨ quote = '"') ∧
      (rest ++ behind).head? = some '\n' ∧ (after style (.literal quote) rest behind).InCode behind := by
  have hline : quote ≠ '`' → quote = '\'' ∨ quote = '"' := by
    intro hne
    simpa [isQuote, hne] using hquote
  induction hlength : front.length using Nat.strong_induction_on generalizing front with
  | _ size ih =>
  cases front with
  | nil =>
    have hend := h
    rcases h with h | ⟨hfeed, h | h | h⟩ <;> cases h
    · exact Or.inr ⟨[], [], rfl, .nil, Or.inl rfl, hfeed, hend⟩
    · exact Or.inr ⟨[], [], rfl, .nil, Or.inr rfl, hfeed, hend⟩
  | cons c front =>
    rw [List.length_cons] at hlength
    by_cases hescape : c = '\\'
    · subst hescape
      cases front with
      | nil => rcases h with h | ⟨-, h | h | h⟩ <;> cases h
      | cons x front =>
        rw [List.length_cons] at hlength
        rw [after, after] at h
        rcases ih front.length (by omega) h rfl with
          ⟨body, rest, rfl, hbody, hrest⟩ | ⟨body, rest, rfl, hbody, hrest⟩
        · exact Or.inl ⟨'\\' :: x :: body, rest, rfl, hbody.escape x, hrest⟩
        · exact Or.inr ⟨'\\' :: x :: body, rest, rfl, hbody.escape x, hrest⟩
    · by_cases hcloses : c = quote
      · rw [after, next, if_neg hescape, if_pos hcloses] at h
        exact Or.inl ⟨[], front, by rw [hcloses]; rfl, .nil, h⟩
      · by_cases hfeed : c = '\n' ∧ quote ≠ '`'
        · exact Or.inr ⟨[], c :: front, rfl, .nil, hline hfeed.2, by rw [hfeed.1]; rfl, h⟩
        · have hchar : c = '\n' → quote = '`' := fun heq => not_not.mp fun hne => hfeed ⟨heq, hne⟩
          rw [after, next, if_neg hescape, if_neg hcloses, if_neg hfeed] at h
          rcases ih front.length (by omega) h rfl with
            ⟨body, rest, rfl, hbody, hrest⟩ | ⟨body, rest, rfl, hbody, hrest⟩
          · exact Or.inl ⟨c :: body, rest, rfl, hbody.char hescape hcloses hchar, hrest⟩
          · exact Or.inr ⟨c :: body, rest, rfl, hbody.char hescape hcloses hchar, hrest⟩

theorem lineComment_cases (h : (after style .lineComment front behind).InCode behind) :
    ∃ body rest, front = body ++ rest ∧ '\n' ∉ body ∧ (rest ++ behind).head? = some '\n' ∧
      (after style .lineComment rest behind).InCode behind := by
  induction front with
  | nil =>
    have hend := h
    rcases h with h | ⟨hfeed, -⟩
    · cases h
    · exact ⟨[], [], rfl, by simp, hfeed, hend⟩
  | cons c front ih =>
    by_cases hfeed : c = '\n'
    · exact ⟨[], c :: front, rfl, by simp, by rw [hfeed]; rfl, h⟩
    · rw [after, next, if_neg hfeed] at h
      obtain ⟨body, rest, rfl, hbody, hrest⟩ := ih h
      refine ⟨c :: body, rest, rfl, ?_, hrest⟩
      rw [List.mem_cons, not_or]
      exact ⟨Ne.symm hfeed, hbody⟩

/-- A block comment that the reader leaves ends with the first mark that can end it. -/
theorem blockComment_cases (h : (after style .blockComment front behind).InCode behind) :
    ∃ body rest, front = body ++ '*' :: '/' :: rest ∧ ¬"*/".toList <:+: body ++ ['*'] ∧
      (after style .code rest behind).InCode behind := by
  induction front with
  | nil => rcases h with h | ⟨-, h | h | h⟩ <;> cases h
  | cons c front ih =>
    rw [after] at h
    by_cases hends : c = '*' ∧ (front ++ behind).head? = some '/'
    · rw [next, if_pos hends] at h
      cases front with
      | nil => rcases h with h | ⟨-, h | h | h⟩ <;> cases h
      | cons x front =>
        obtain ⟨rfl, hahead⟩ := hends
        obtain rfl : x = '/' := Option.some.inj hahead
        exact ⟨[], front, rfl, by decide, h⟩
    · rw [next, if_neg hends] at h
      obtain ⟨body, rest, rfl, hbody, hrest⟩ := ih h
      refine ⟨c :: body, rest, rfl, ?_, hrest⟩
      rw [List.cons_append, List.infix_cons_iff]
      rintro (hfirst | hin)
      · -- the mark would stand at the first character, which has been read on over
        obtain ⟨hc, hnext⟩ := List.cons_prefix_cons.mp hfirst
        refine hends ⟨hc.symm, ?_⟩
        cases body with
        | nil => cases (List.cons_prefix_cons.mp hnext).1
        | cons x body =>
          obtain rfl := (List.cons_prefix_cons.mp hnext).1
          rfl
      · exact hbody hin

theorem comment_cases (hopens : OpensComment style (c :: (front ++ behind)))
    (h : (after style .code (c :: front) behind).InCode behind) :
    (∃ mark body rest, c :: front = mark ++ (body ++ rest) ∧ mark ∈ style.lineMarks ∧
      '\n' ∉ body ∧ (rest ++ behind).head? = some '\n' ∧
      (after style .lineComment rest behind).InCode behind) ∨
    (style = .slashes ∧ ∃ body rest, c :: front = '/' :: '*' :: (body ++ '*' :: '/' :: rest) ∧
      ¬"*/".toList <:+: body ++ ['*'] ∧ (after style .code rest behind).InCode behind) := by
  rcases opensComment_cons_iff.mp hopens with ⟨rfl, rfl, hsecond⟩ | ⟨rfl, rfl⟩
  · cases front with
    | nil =>
      -- the place would be between the two characters of the mark
      rw [List.nil_append] at hsecond
      rw [after, List.nil_append] at h
      rcases hsecond with hsecond | hsecond <;> rw [hsecond] at h <;> rcases h with h | ⟨hline, -⟩
      · cases h
      · cases hsecond.symm.trans hline
      · cases h
      · cases hsecond.symm.trans hline
    | cons x front =>
      rcases hsecond with hsecond | hsecond <;> obtain rfl := Option.some.inj hsecond
      · have h : (after .slashes .lineComment front behind).InCode behind := h
        obtain ⟨body, rest, rfl, hrest⟩ := lineComment_cases h
        exact Or.inl ⟨['/', '/'], body, rest, rfl, List.mem_singleton.mpr rfl, hrest⟩
      · have h : (after .slashes .blockComment front behind).InCode behind := h
        obtain ⟨body, rest, rfl, hrest⟩ := blockComment_cases h
        exact Or.inr ⟨rfl, body, rest, rfl, hrest⟩
  · have h : (after .hash .lineComment front behind).InCode behind := h
    obtain ⟨body, rest, rfl, hrest⟩ := lineComment_cases h
    exact Or.inl ⟨['#'], body, rest, rfl, List.mem_singleton.mpr rfl, hrest⟩

theorem readsOver_of_inCode (hmode : mode.InCode (front ++ behind))
    (h : (after style mode front behind).InCode behind) : ReadsOver style front behind := by
  induction hlength : front.length using Nat.strong_induction_on generalizing front mode with
  | _ size ih =>
  cases front with
  | nil => exact .nil behind
  | cons c front =>
    have hmode : mode.InCode (c :: (front ++ behind)) := hmode
    by_cases hcomment : OpensComment style (c :: (front ++ behind))
    · rw [hmode.eq_code (ne_feed_of_opensComment hcomment)] at h
      rcases comment_cases hcomment h with
        ⟨mark, body, rest, hfront, hmark, hbody, hline, hrest⟩ | ⟨hstyle, body, rest, hfront, hbody, hrest⟩
      · rw [hfront] at hlength ⊢
        obtain ⟨x, more, rfl, -⟩ := exists_cons_of_mem_lineMarks hmark
        simp only [List.length_append, List.length_cons] at hlength
        exact .lineComment hmark hbody hline (ih rest.length (by omega) (inCode_lineComment hline) hrest rfl)
      · rw [hfront] at hlength ⊢
        simp only [List.length_cons, List.length_append] at hlength
        exact .blockComment hstyle hbody (ih rest.length (by omega) (inCode_code _) hrest rfl)
    · rw [List.length_cons] at hlength
      cases hquote : isQuote c with
      | false =>
        rw [after, hmode.next_eq_code hquote hcomment] at h
        exact .char hquote hcomment (ih front.length (by omega) (inCode_code _) h rfl)
      | true =>
        rw [after, hmode.eq_code (ne_feed_of_isQuote hquote), next_code_of_quote hquote] at h
        rcases literal_cases hquote h with
          ⟨body, rest, rfl, hbody, hrest⟩ | ⟨body, rest, rfl, hbody, hkind, hline, hrest⟩
        · simp only [List.length_append, List.length_cons] at hlength
          exact .closed hquote hbody (ih rest.length (by omega) (inCode_code _) hrest rfl)
        · rw [List.length_append] at hlength
          exact .unclosed hkind hbody hline
            (ih rest.length (by omega) (inCode_literal hkind hline) hrest rfl)

theorem live_iff : Live style text start offset ↔ start ≤ offset ∧ offset < text.length ∧
    (after style .code ((text.drop start).take (offset - start)) (text.drop offset)).InCode
      (text.drop offset) := by
  constructor
  · rintro ⟨front, c, behind, hdrop, rfl, hreads⟩
    have hlength := congrArg List.length hdrop
    simp only [List.length_drop, List.length_append, List.length_cons] at hlength
    have hbehind : text.drop (start + front.length) = c :: behind := by
      rw [← List.drop_drop, hdrop, List.drop_left]
    refine ⟨Nat.le_add_right .., by omega, ?_⟩
    rw [hbehind, hdrop, Nat.add_sub_cancel_left, List.take_left]
    exact hreads.inCode (Or.inl rfl)
  · rintro ⟨hstart, hoffset, h⟩
    obtain ⟨k, rfl⟩ := Nat.exists_eq_add_of_le hstart
    have hbehind := List.drop_eq_getElem_cons hoffset
    rw [Nat.add_sub_cancel_left, hbehind] at h
    have hlength : ((text.drop start).take k).length = k := by
      rw [List.length_take, List.length_drop]
      omega
    refine ⟨(text.drop start).take k, text[start + k], text.drop (start + k + 1), ?_, by rw [hlength],
      readsOver_of_inCode (Or.inl rfl) h⟩
    rw [← hbehind, ← List.drop_drop, List.take_append_drop]

instance (style : CommentStyle) (text : Text) (start offset : Nat) :
    Decidable (Live style text start offset) :=
  decidable_of_iff _ live_iff.symm

theorem getElem?_codeOf_iff (hc : c ≠ ' ') : (codeOf style mode text)[n]? = some c ↔
    text[n]? = some c ∧ after style mode (text.take n) (text.drop n) = .code := by
  induction text generalizing mode n with
  | nil => simp [codeOf]
  | cons x text ih =>
    cases n with
    | zero =>
      simp only [codeOf, seen, List.getElem?_cons_zero, Option.some.injEq, List.take_zero, after]
      by_cases hmode : mode = .code
      · simp [hmode]
      · simp [hmode, Ne.symm hc]
    | succ n =>
      simp only [codeOf, List.getElem?_cons_succ, List.take_succ_cons, List.drop_succ_cons, after,
        List.take_append_drop]
      exact ih

/-- The live offsets of a character other than a line feed are the ones at which the code shows it. -/
theorem getElem?_codeOf_drop_iff (hc : c ≠ ' ') (hline : c ≠ '\n') :
    (codeOf style .code (text.drop start))[n]? = some c ↔
      Live style text start (start + n) ∧ text[start + n]? = some c := by
  rw [getElem?_codeOf_iff hc, live_iff, List.getElem?_drop, List.drop_drop, Nat.add_sub_cancel_left,
    and_comm]
  refine and_congr_left fun hget => ?_
  obtain ⟨hlt, hat⟩ := List.getElem?_eq_some_iff.mp hget
  rw [List.drop_eq_getElem_cons hlt, hat]
  exact ⟨fun h => ⟨Nat.le_add_right .., hlt, Or.inl h⟩, fun h => h.2.2.eq_code hline⟩

end CodeGraft
