import CodeGraft.Proofs.BelowFeed
import CodeGraft.Proofs.BoundBodies
import CodeGraft.Proofs.ClosersInPlace
import CodeGraft.Proofs.Continuations
import CodeGraft.Proofs.IndentedHeads

/-!
# Texts above a line feed

With a line feed below it a text is read as before. A pattern whose stretches end otherwise never comes to
the end of the longer text, and so it fits where it has fitted. The blanks behind an arrow or an equals sign
can reach over the line feed; but then nothing is left for a body, and in the shorter text there are at most
blanks, so that neither text has a span there.
-/

namespace CodeGraft

open Text Pattern Cursor

def Cut.aboveFeed (text : Text) : Cut := ⟨0, text, ['\n']⟩

theorem Capture.shifted_zero (k : Capture) : k.shifted 0 = k := by
  rw [shifted, Nat.zero_add]

namespace Cut

open Shape

variable {text : Text} {a b c d : Cursor} {p : Pattern} {label : Label}

theorem aboveFeed_start (text : Text) :
    (aboveFeed text).Same (Cursor.start (text ++ ['\n'])) (Cursor.start text) :=
  ⟨rfl, rfl, rfl, ⟨[], rfl, rfl, rfl⟩, fun _ _ => rfl⟩

theorem offset_of_aboveFeed (h : (aboveFeed text).Same a b) : a.offset = b.offset := by
  rw [h.offset_eq, aboveFeed, Nat.zero_add]

theorem captured?_of_aboveFeed (h : (aboveFeed text).Same a b) (hlabel : label ≠ .indent) :
    a.captured? label = b.captured? label := by
  rw [h.captured label hlabel]
  change (b.captured? label).map (·.shifted 0) = _
  simp only [Capture.shifted_zero, Option.map_id']

theorem respects_wordEdge_aboveFeed {limit : Nat} :
    (aboveFeed text).Respects limit fun before rest => isWordEdge before rest.head? := by
  intro a b hab
  have hhead : a.rest.head?.any isWordChar = b.rest.head?.any isWordChar := by
    rw [hab.rest_eq]
    cases b.rest with
    | nil => rfl
    | cons x rest => rfl
  simp only [isWordEdge, hab.before_eq, hhead]
  exact ⟨id, fun _ => id⟩

theorem header_respects_aboveFeed (shape : Shape) {limit : Nat} :
    shape.header.Every ((aboveFeed text).Respects limit) fun _ => True := by
  cases shape with
  | declaration => simp [header, declarationHeader, Every, respects_wordEdge_aboveFeed]
  | assigned =>
    simp [header, assignedHeader, Every, respects_wordEdge_aboveFeed, respects_of_before]
  | callShaped => simp [header, callHeader, Every, respects_wordEdge_aboveFeed, respects_of_before]
  | indentation => simp [header, indentationHeader, Every, respects_of_before]

theorem rest_eq_nil_of_lt (hab : (aboveFeed text).Same a b) (h : a.Reaches c)
    (hlt : text.length < c.offset) : c.rest = [] := by
  obtain ⟨passed, hpassed⟩ := h
  have hlength := congrArg List.length (hab.rest_eq.symm.trans hpassed.rest_eq)
  have hcontent : b.offset + b.rest.length = text.length := hab.length_eq
  have hoffset := offset_of_aboveFeed hab
  have hend := hpassed.offset_eq
  simp only [aboveFeed, List.length_append, List.length_singleton] at hlength
  exact List.eq_nil_of_length_eq_zero (by omega)

/-- A stretch that ends otherwise than with a line feed does not come to the end of the longer text. -/
theorem rest_ne_nil_of_leads (hab : (aboveFeed text).Same a b) (h : p.Leads a c)
    (hp : p.endsWithout '\n' = true) : c.rest ≠ [] := by
  intro hnil
  obtain ⟨passed, hpassed, hlast⟩ := h.passes_of_endsWithout hp
  have hrest := hab.rest_eq.symm.trans hpassed.rest_eq
  rw [hnil, List.append_nil] at hrest
  rw [← hrest] at hlast
  exact hlast (List.getLast?_concat ..)

theorem attempt_aboveFeed (hp : p.Every ((aboveFeed text).Respects (text.length + 1)) fun _ => True)
    (hends : p.endsWithout '\n' = true) (hab : (aboveFeed text).Same a b) :
    Option.Rel (aboveFeed text).Same (p.attempt a some) (p.attempt b some) := by
  have hagree : (aboveFeed text).Agree (text.length + 1) (p.attempt a some) (p.attempt b some) :=
    attempt_agree (Nat.le_refl _) hp hab forward_some fun _ _ hcd => .some hcd
  cases hr : p.attempt a some with
  | none =>
    rw [hagree.of_none hr]
    exact .none
  | some c =>
    have hleads := leads_of_attempt hr
    have hlt : c.offset < 0 + (text.length + 1) := by
      by_contra hge
      exact rest_ne_nil_of_leads hab hleads hends (rest_eq_nil_of_lt hab hleads.passes (by omega))
    obtain ⟨e, he, hsame⟩ := hagree.of_some c hr hlt
    rw [he]
    exact .some hsame

theorem fitAt?_aboveFeed (hp : p.Every ((aboveFeed text).Respects (text.length + 1)) fun _ => True)
    (hends : p.endsWithout '\n' = true) (hab : (aboveFeed text).Same a b) :
    Option.Rel (aboveFeed text).Same (p.fitAt? a) (p.fitAt? b) :=
  attempt_aboveFeed hp hends hab.fresh

theorem rel_cases {r s : Option Cursor} (h : Option.Rel (aboveFeed text).Same r s) :
    (r = none ∧ s = none) ∨ ∃ c d, r = some c ∧ s = some d ∧ (aboveFeed text).Same c d := by
  cases h with
  | none => exact Or.inl ⟨rfl, rfl⟩
  | some hcd => exact Or.inr ⟨_, _, rfl, rfl, hcd⟩

theorem rel_bind {β : Type} {R : β → β → Prop} {r s : Option Cursor} {f g : Cursor → Option β}
    (h : Option.Rel (aboveFeed text).Same r s)
    (hfg : ∀ c d, (aboveFeed text).Same c d → Option.Rel R (f c) (g d)) :
    Option.Rel R (r.bind f) (s.bind g) := by
  cases h with
  | none => exact .none
  | some hcd => exact hfg _ _ hcd

theorem closingFrom_feed {delimiter : Delimiter} (hd : delimiter.closer ≠ '\n') (style : CommentStyle)
    (mode : ReadMode) (depth : Nat) (text : Text) :
    delimiter.closingFrom style mode depth (text ++ ['\n']) =
      delimiter.closingFrom style mode depth text := by
  refine Option.ext fun n => ⟨fun h => ?_, fun h => Delimiter.closingFrom_append_right h _⟩
  refine Delimiter.closingFrom_append h ?_
  have hcloser := Delimiter.getElem?_of_closingFrom h
  by_contra hn
  rw [List.getElem?_append_right (by omega), List.getElem?_singleton] at hcloser
  split at hcloser
  next => exact hd (Option.some.inj hcloser).symm
  next => cases hcloser

theorem close?_aboveFeed (delimiter : Delimiter) (hd : delimiter.closer ≠ '\n') {style : CommentStyle}
    (hab : (aboveFeed text).Same a b) :
    Option.Rel (aboveFeed text).Same (delimiter.close? style a) (delimiter.close? style b) := by
  have hrest : a.rest = b.rest ++ ['\n'] := hab.rest_eq
  rw [Delimiter.close?, Delimiter.close?, hrest, closingFrom_feed hd]
  cases hn : delimiter.closingFrom style .code 1 b.rest with
  | none => exact .none
  | some n =>
    exact .some (hab.skip (List.getElem?_eq_some_iff.mp (Delimiter.getElem?_of_closingFrom hn)).1)

theorem braceBody?_aboveFeed (hab : (aboveFeed text).Same a b) :
    Option.Rel (aboveFeed text).Same (braceBody? a) (braceBody? b) := by
  refine rel_bind (close?_aboveFeed .paren (by decide) hab) fun c d hcd => ?_
  refine rel_bind (fitAt?_aboveFeed respects_bodyOpening rfl hcd) fun e f hef => ?_
  exact close?_aboveFeed .brace (by decide) hef

theorem takeWhile_feed (text : Text) :
    (text ++ ['\n']).takeWhile (· ≠ '\n') = text.takeWhile (· ≠ '\n') := by
  induction text with
  | nil => rfl
  | cons c text ih => rw [List.cons_append, List.takeWhile_cons, List.takeWhile_cons, ih]

theorem expressionEnd?_aboveFeed (hab : (aboveFeed text).Same a b) :
    Option.Rel (aboveFeed text).Same (expressionEnd? a) (expressionEnd? b) := by
  have hrest : a.rest = b.rest ++ ['\n'] := hab.rest_eq
  have hle : (trimEnd (b.rest.takeWhile (· ≠ '\n'))).length ≤ b.rest.length :=
    (trimEnd_isPrefix _).length_le.trans (List.takeWhile_prefix _).length_le
  simp only [expressionEnd?, hrest, takeWhile_feed]
  split
  next => exact .none
  next => exact .some (hab.skip hle)

end Cut

namespace Shape

variable {a b : Cursor}

/-! ### Bodies behind an arrow -/

theorem arrowHead?_eq (a : Cursor) :
    arrowHead? a = if a.rest.head? = some '(' then
        (Delimiter.paren.close? .slashes a.next).bind arrow.fitAt?
      else bareParameterArrow.fitAt? a := by
  rw [arrowHead?]
  split
  next rest hrest =>
    rw [hrest, List.head?_cons, if_pos rfl]
    rfl
  next hother =>
    rw [if_neg fun hhead => ?_]
    obtain ⟨rest, hrest⟩ := List.head?_eq_some_iff.mp hhead
    exact hother rest hrest

def arrowBodyEnd? (body : Cursor) : Option Cursor :=
  if body.rest.head? = some '{' then Delimiter.brace.close? .slashes body.next else expressionEnd? body

theorem boundCallableEnd?_eq (a : Cursor) :
    boundCallableEnd? a = match lambdaHead.fitAt? a with
      | some body => expressionEnd? body
      | none => match functionHead.fitAt? a with
        | some opened => braceBody? opened
        | none => (arrowHead? a).bind arrowBodyEnd? := by
  rw [boundCallableEnd?]
  cases lambdaHead.fitAt? a with
  | some body => rfl
  | none =>
    cases functionHead.fitAt? a with
    | some opened => rfl
    | none =>
      cases arrowHead? a with
      | none => rfl
      | some body =>
        simp only [Option.bind_some, arrowBodyEnd?]
        split
        next rest hrest => rw [hrest, List.head?_cons, if_pos rfl]
        next hother =>
          rw [if_neg fun hhead => ?_]
          obtain ⟨rest, hrest⟩ := List.head?_eq_some_iff.mp hhead
          exact hother rest hrest

theorem arrowBodyEnd?_of_blank (h : isBlankText a.rest = true) : arrowBodyEnd? a = none := by
  have hline : isBlankText (a.rest.takeWhile (· ≠ '\n')) = true := by
    refine List.all_eq_true.mpr fun x hx => ?_
    exact List.all_eq_true.mp h x ((List.takeWhile_prefix _).subset hx)
  rw [arrowBodyEnd?, expressionEnd?, (trimEnd_eq_nil_iff _).mpr hline, if_neg]
  · rfl
  · intro hhead
    obtain ⟨rest, hrest⟩ := List.head?_eq_some_iff.mp hhead
    rw [hrest] at h
    cases h

/-- Without a colon, a parenthesis and an equals sign there is no bound callable. -/
theorem boundCallableEnd?_eq_none (h : ∀ x ∈ [':', '(', '='], x ∉ a.rest) :
    boundCallableEnd? a = none := by
  simp only [List.forall_mem_cons] at h
  obtain ⟨hcolon, hparen, hequals, -⟩ := h
  have hlambda : lambdaHead.Needs ':' := needs_cat (p := literal ":") (by simp) (needs_literal (by decide))
  have hfunction : functionHead.Needs '(' :=
    needs_cat (p := literal "(") (by simp) (needs_literal (by decide))
  have hbare : bareParameterArrow.Needs '=' :=
    needs_cat (p := literal "=>") (by simp) (needs_literal (by decide))
  have hhead : a.rest.head? ≠ some '(' := fun h => hparen (List.mem_of_head? h)
  rw [boundCallableEnd?_eq, fitAt?_eq_none_of_needs hlambda hcolon,
    fitAt?_eq_none_of_needs hfunction hparen, arrowHead?_eq, if_neg hhead,
    fitAt?_eq_none_of_needs hbare hequals]
  rfl

end Shape

namespace Cut

open Shape

variable {text : Text} {a b c d : Cursor}

def LeavesBlanks (r : Option Cursor) : Prop := ∀ c ∈ r, isBlankText c.rest = true

theorem bind_arrowBodyEnd?_of_leavesBlanks {r : Option Cursor} (h : LeavesBlanks r) :
    r.bind arrowBodyEnd? = none :=
  Option.bind_eq_none_iff.mpr fun _ hc => arrowBodyEnd?_of_blank (h _ hc)

theorem head?_eq_iff_aboveFeed (hab : (aboveFeed text).Same a b) {x : Char} (hx : x ≠ '\n') :
    a.rest.head? = some x ↔ b.rest.head? = some x := by
  rw [hab.rest_eq]
  cases b.rest with
  | nil => simp [aboveFeed, hx.symm]
  | cons y rest => rfl

/-- An arrow is found above the line feed as well, or nothing but blanks follows it. -/
theorem arrow_aboveFeed {ps : List Pattern} (hps : (cat ps).Avoids '=')
    (hp : (cat (ps ++ [literal "=>"] ++ [blanks])).Every ((aboveFeed text).Respects (text.length + 1))
      fun _ => True)
    (hab : (aboveFeed text).Same a b) :
    Option.Rel (aboveFeed text).Same ((cat (ps ++ [literal "=>"] ++ [blanks])).fitAt? a)
        ((cat (ps ++ [literal "=>"] ++ [blanks])).fitAt? b) ∨
      (LeavesBlanks ((cat (ps ++ [literal "=>"] ++ [blanks])).fitAt? a) ∧
        LeavesBlanks ((cat (ps ++ [literal "=>"] ++ [blanks])).fitAt? b)) := by
  generalize hpattern : cat (ps ++ [literal "=>"] ++ [blanks]) = p at hp ⊢
  have hagree : (aboveFeed text).Agree (text.length + 1) (p.fitAt? a) (p.fitAt? b) :=
    fitAt?_agree (Nat.le_refl _) hp hab
  cases hr : p.fitAt? a with
  | none =>
    rw [hagree.of_none hr]
    exact Or.inl .none
  | some c =>
    by_cases hlt : c.offset < 0 + (text.length + 1)
    · obtain ⟨e, he, hsame⟩ := hagree.of_some c hr hlt
      rw [he]
      exact Or.inl (.some hsame)
    · -- all that follows the arrow is passed over, and it is the same text in the stretch
      have hnil := rest_eq_nil_of_lt hab (fitAt?_reaches hr) (by omega)
      subst hpattern
      obtain ⟨front, gap, hpasses, hgap, hno⟩ := leads_arrow hps (leads_of_attempt hr)
      refine Or.inr ⟨fun e he => ?_, fun d hd => ?_⟩
      · cases he
        rw [hnil]
        rfl
      · obtain ⟨front', gap', hpasses', -, hno'⟩ := leads_arrow hps (leads_of_attempt hd)
        have hfront : a.rest = front ++ '=' :: ('>' :: gap) := by
          have hrest : a.rest = (front ++ '=' :: '>' :: gap) ++ c.rest := hpasses.rest_eq
          rw [hrest, hnil, List.append_nil]
        have hfront' : a.rest = front' ++ '=' :: ('>' :: (gap' ++ (d.rest ++ ['\n']))) := by
          have hrest : b.rest = (front' ++ '=' :: '>' :: gap') ++ d.rest := hpasses'.rest_eq
          rw [hab.rest_eq, hrest]
          simp [aboveFeed]
        have hsame : '>' :: gap = '>' :: (gap' ++ (d.rest ++ ['\n'])) :=
          eq_of_append_mark hno hno' (hfront.symm.trans hfront')
        rw [(List.cons.inj hsame).2] at hgap
        simp only [isBlankText, List.all_append, Bool.and_eq_true] at hgap
        exact hgap.2.1

theorem arrowHead?_aboveFeed (hab : (aboveFeed text).Same a b) :
    Option.Rel (aboveFeed text).Same (arrowHead? a) (arrowHead? b) ∨
      (LeavesBlanks (arrowHead? a) ∧ LeavesBlanks (arrowHead? b)) := by
  rw [arrowHead?_eq, arrowHead?_eq]
  by_cases hparen : b.rest.head? = some '('
  · rw [if_pos ((head?_eq_iff_aboveFeed hab (by decide)).mpr hparen), if_pos hparen]
    have hne : b.rest ≠ [] := List.ne_nil_of_mem (List.mem_of_head? hparen)
    rcases rel_cases (close?_aboveFeed .paren (by decide) (hab.next hne)) with
      ⟨hc, hd⟩ | ⟨c, d, hc, hd, hcd⟩
    · rw [hc, hd]
      exact Or.inl .none
    · rw [hc, hd]
      exact arrow_aboveFeed avoids_arrowParts respects_arrow hcd
  · rw [if_neg (mt (head?_eq_iff_aboveFeed hab (by decide)).mp hparen), if_neg hparen]
    exact arrow_aboveFeed avoids_bareParameter respects_bareParameterArrow hab

theorem arrowBodyEnd?_aboveFeed (hab : (aboveFeed text).Same a b) :
    Option.Rel (aboveFeed text).Same (arrowBodyEnd? a) (arrowBodyEnd? b) := by
  rw [arrowBodyEnd?, arrowBodyEnd?]
  by_cases hbrace : b.rest.head? = some '{'
  · rw [if_pos ((head?_eq_iff_aboveFeed hab (by decide)).mpr hbrace), if_pos hbrace]
    have hne : b.rest ≠ [] := List.ne_nil_of_mem (List.mem_of_head? hbrace)
    exact close?_aboveFeed .brace (by decide) (hab.next hne)
  · rw [if_neg (mt (head?_eq_iff_aboveFeed hab (by decide)).mp hbrace), if_neg hbrace]
    exact expressionEnd?_aboveFeed hab

theorem boundCallableEnd?_aboveFeed (hab : (aboveFeed text).Same a b) :
    Option.Rel (aboveFeed text).Same (boundCallableEnd? a) (boundCallableEnd? b) := by
  have hlambda : Option.Rel (aboveFeed text).Same (lambdaHead.fitAt? a) (lambdaHead.fitAt? b) :=
    fitAt?_aboveFeed (by simp [lambdaHead, Every, respects_wordEdge_aboveFeed]) rfl hab
  have hfunction : Option.Rel (aboveFeed text).Same (functionHead.fitAt? a) (functionHead.fitAt? b) :=
    fitAt?_aboveFeed (by simp [functionHead, respects_wordEdge_aboveFeed]) rfl hab
  rw [boundCallableEnd?_eq, boundCallableEnd?_eq]
  rcases rel_cases hlambda with ⟨hc, hd⟩ | ⟨c, d, hc, hd, hcd⟩
  · rcases rel_cases hfunction with ⟨he, hf⟩ | ⟨e, f, he, hf, hef⟩
    · rw [hc, hd, he, hf]
      rcases arrowHead?_aboveFeed hab with harrow | ⟨hblank, hblank'⟩
      · exact rel_bind harrow fun _ _ => arrowBodyEnd?_aboveFeed
      · dsimp only
        rw [bind_arrowBodyEnd?_of_leavesBlanks hblank, bind_arrowBodyEnd?_of_leavesBlanks hblank']
        exact .none
    · rw [hc, hd, he, hf]
      exact braceBody?_aboveFeed hef
  · rw [hc, hd]
    exact expressionEnd?_aboveFeed hcd

end Cut

end CodeGraft
