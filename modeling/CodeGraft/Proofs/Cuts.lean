import CodeGraft.Callable.Shape
import CodeGraft.Proofs.Walk

/-!
# Stretches cut out of a text

Whoever reads a text from a place in a stretch, and stays in it, sees the same when the stretch is cut
out. A pattern may look beyond the end of the stretch, so its answers are compared only as far as they
lie in front of a limit; that it finds nothing is the same everywhere.
-/

namespace CodeGraft

open Text Pattern Cursor

structure Cut where
  /-- The offset of the stretch in the text. -/
  start : Nat
  content : Text
  /-- What follows the stretch in the text. -/
  tail : Text

def Capture.shifted (k : Capture) (n : Nat) : Capture := { k with start := n + k.start }

namespace Cut

variable {w : Cut} {limit : Nat}

/-- The place `b` of the stretch by itself is the place `a` of the text. An indentation is captured in
front of a stretch, so it need not be the same. -/
structure Same (w : Cut) (a b : Cursor) : Prop where
  rest_eq : a.rest = b.rest ++ w.tail
  offset_eq : a.offset = w.start + b.offset
  before_eq : a.before = b.before
  stands : ∃ lead, w.content = lead ++ b.rest ∧ b.offset = lead.length ∧ b.before = lead.getLast?
  captured : ∀ label, label ≠ .indent →
    a.captured? label = (b.captured? label).map (·.shifted w.start)

theorem Same.length_eq {a b : Cursor} (h : w.Same a b) :
    b.offset + b.rest.length = w.content.length := by
  obtain ⟨lead, hcontent, hoffset, -⟩ := h.stands
  rw [hcontent, hoffset, List.length_append]

theorem Same.rest_ne_nil {a b : Cursor} (h : w.Same a b)
    (hlt : a.offset < w.start + w.content.length) : b.rest ≠ [] := by
  intro hnil
  have hlen := h.length_eq
  have hoffset := h.offset_eq
  rw [hnil, List.length_nil] at hlen
  omega

theorem Same.head?_eq {a b : Cursor} (h : w.Same a b) (hne : b.rest ≠ []) :
    a.rest.head? = b.rest.head? := by
  obtain ⟨x, rest, hb⟩ := List.exists_cons_of_ne_nil hne
  rw [h.rest_eq, hb, List.cons_append, List.head?_cons, List.head?_cons]

theorem Same.rest_length_lt {a b c d : Cursor} (h : w.Same a b) (h' : w.Same c d)
    (hmoves : b.offset < d.offset) : c.rest.length < a.rest.length ∧ d.rest.length < b.rest.length := by
  have hlen := h.length_eq
  have hlen' := h'.length_eq
  rw [h.rest_eq, h'.rest_eq, List.length_append, List.length_append]
  omega

theorem Same.fresh {a b : Cursor} (h : w.Same a b) : w.Same a.fresh b.fresh :=
  ⟨h.rest_eq, h.offset_eq, h.before_eq, h.stands, fun _ _ => rfl⟩

theorem Same.next {a b : Cursor} (h : w.Same a b) (hne : b.rest ≠ []) : w.Same a.next b.next := by
  obtain ⟨x, rest, hb⟩ := List.exists_cons_of_ne_nil hne
  have ha : a.rest = x :: (rest ++ w.tail) := by rw [h.rest_eq, hb, List.cons_append]
  obtain ⟨lead, hcontent, hoffset, -⟩ := h.stands
  have hnext : a.next = { a with offset := a.offset + 1, before := some x, rest := rest ++ w.tail } := by
    simp [Cursor.next, ha]
  have hnext' : b.next = { b with offset := b.offset + 1, before := some x, rest := rest } := by
    simp [Cursor.next, hb]
  rw [hnext, hnext']
  refine ⟨rfl, ?_, rfl, ⟨lead ++ [x], ?_, ?_, ?_⟩, h.captured⟩
  · rw [h.offset_eq, Nat.add_assoc]
  · rw [hcontent, hb, List.append_assoc, List.singleton_append]
  · rw [hoffset, List.length_append, List.length_singleton]
  · rw [List.getLast?_append, List.getLast?_singleton, Option.some_or]

theorem Same.skip {a b : Cursor} (h : w.Same a b) {n : Nat} (hn : n ≤ b.rest.length) :
    w.Same (a.skip n) (b.skip n) := by
  induction n generalizing a b with
  | zero => exact h
  | succ n ih =>
    have hne : b.rest ≠ [] := by
      rintro hnil
      rw [hnil] at hn
      cases hn
    refine ih (h.next hne) ?_
    obtain ⟨x, rest, hb⟩ := List.exists_cons_of_ne_nil hne
    rw [hb, List.length_cons] at hn
    simp only [Cursor.next, hb]
    omega

theorem Same.capture {a b a' b' : Cursor} (h : w.Same a b) (h' : w.Same a' b') (label : Label) :
    w.Same (a'.capture a label) (b'.capture b label) := by
  refine ⟨h'.rest_eq, h'.offset_eq, h'.before_eq, h'.stands, ?_⟩
  intro l hl
  have hlen := h.length_eq
  have hlen' := h'.length_eq
  have htext : a.rest.take (a'.offset - (w.start + b.offset)) =
      b.rest.take (b'.offset - b.offset) := by
    rw [h.rest_eq, h'.offset_eq, List.take_append_of_le_length (by omega)]
    congr 1
    omega
  by_cases hlabel : label = l
  · simp [captured?, Cursor.capture, hlabel, htext, Capture.shifted, h.offset_eq]
  · simpa [captured?, Cursor.capture, hlabel] using h'.captured l hl

/-- The answer `s` in the stretch goes with the answer `r` in the text: there is none where there is
none, and they are the same place where `r` lies in front of the limit. -/
structure Agree (w : Cut) (limit : Nat) (r s : Option Cursor) : Prop where
  of_none : r = none → s = none
  of_some : ∀ a, r = some a → a.offset < w.start + limit → ∃ b, s = some b ∧ w.Same a b

theorem Agree.none : w.Agree limit none none := ⟨fun _ => rfl, fun _ h => by cases h⟩

theorem Agree.some {a b : Cursor} (h : w.Same a b) : w.Agree limit (some a) (some b) := by
  refine ⟨fun h => (by cases h), ?_⟩
  intro a' ha' _
  cases ha'
  exact ⟨b, rfl, h⟩

theorem Agree.of_beyond {r s : Option Cursor} (hr : ∀ a, r = Option.some a → w.start + limit ≤ a.offset)
    (hs : r = Option.none → s = Option.none) : w.Agree limit r s :=
  ⟨hs, fun a ha hlt => absurd (hr a ha) (by omega)⟩

theorem Agree.or {r s r' s' : Option Cursor} (h : w.Agree limit r s) (h' : w.Agree limit r' s') :
    w.Agree limit (r.or r') (s.or s') := by
  cases r with
  | none =>
    rw [h.of_none rfl]
    exact h'
  | some a =>
    refine ⟨fun h => (by cases h), ?_⟩
    intro a' ha' hlt
    cases ha'
    obtain ⟨b, rfl, hab⟩ := h.of_some a rfl hlt
    exact ⟨b, rfl, hab⟩

/-! ### Attempts -/

/-- A test that fails in the text fails in the stretch, and one that holds in the text in front of the
limit holds in the stretch. -/
def Respects (w : Cut) (limit : Nat) (holds : Option Char → Text → Bool) : Prop :=
  ∀ a b, w.Same a b → (holds b.before b.rest = true → holds a.before a.rest = true) ∧
    (b.offset < limit → holds a.before a.rest = true → holds b.before b.rest = true)

/-- A continuation that answers with places behind the one that it is given. -/
def Forward (k : Cursor → Option Cursor) : Prop := ∀ a r, k a = some r → a.offset ≤ r.offset

theorem forward_some : Forward some := by
  intro a r h
  cases h
  exact Nat.le_refl _

theorem Forward.attempt {k : Cursor → Option Cursor} (hk : Forward k) (p : Pattern) :
    Forward fun a => p.attempt a k := by
  intro a r h
  obtain ⟨b, hab, hb⟩ := attempt_leads h
  exact Nat.le_trans hab.offset_le (hk b r hb)

/-- At the end of a text no turn of a repetition moves on. -/
theorem guarded_eq_none (p : Pattern) {a : Cursor} (ha : a.rest = []) (k : Cursor → Option Cursor) :
    (p.attempt a fun b => if a.offset < b.offset then k b else none) = none := by
  cases hr : p.attempt a fun b => if a.offset < b.offset then k b else none with
  | none => rfl
  | some r =>
    obtain ⟨b, hab, hb⟩ := attempt_leads hr
    obtain ⟨passed, hpassed⟩ := hab.passes
    have hnil : passed = [] := by
      have := hpassed.rest_eq
      rw [ha] at this
      exact (List.append_eq_nil_iff.mp this.symm).1
    have hoffset := hpassed.offset_eq
    rw [hnil] at hoffset
    rw [if_neg (by simp [hoffset])] at hb
    cases hb

/-- Where the attempts of a pattern agree, so do its turns. At the end of the stretch there are none in
it, and those in the text lead out of it. -/
theorem guarded_agree {p : Pattern}
    (hp : ∀ {a b k k'}, w.Same a b → Forward k →
      (∀ c d, w.Same c d → w.Agree limit (k c) (k' d)) →
      w.Agree limit (p.attempt a k) (p.attempt b k'))
    {a b : Cursor} (hab : w.Same a b) {k k' : Cursor → Option Cursor} (hk : Forward k)
    (hkk : ∀ c d, w.Same c d → b.offset < d.offset → w.Agree limit (k c) (k' d)) :
    w.Agree limit (p.attempt a fun c => if a.offset < c.offset then k c else none)
      (p.attempt b fun d => if b.offset < d.offset then k' d else none) := by
  refine hp hab ?_ ?_
  · intro c r h
    rw [Option.ite_none_right_eq_some] at h
    exact hk c r h.2
  · intro c d hcd
    have hoffset := hab.offset_eq
    have hoffset' := hcd.offset_eq
    by_cases hmoves : b.offset < d.offset
    · rw [if_pos (by omega), if_pos hmoves]
      exact hkk c d hcd hmoves
    · rw [if_neg (by omega), if_neg hmoves]
      exact .none

theorem guarded_beyond (hlimit : limit ≤ w.content.length + 1) (p : Pattern) {a b : Cursor}
    (hab : w.Same a b) (hb : b.rest = []) {k : Cursor → Option Cursor} (hk : Forward k) :
    w.Agree limit (p.attempt a fun c => if a.offset < c.offset then k c else none) none := by
  refine .of_beyond ?_ fun _ => rfl
  intro r h
  obtain ⟨c, -, hc⟩ := attempt_leads h
  rw [Option.ite_none_right_eq_some] at hc
  have hle := hk c r hc.2
  have hlen := hab.length_eq
  rw [hb, List.length_nil] at hlen
  have hoffset := hab.offset_eq
  omega

theorem repeatMost_agree (hlimit : limit ≤ w.content.length + 1) {p : Pattern}
    (hp : ∀ {a b k k'}, w.Same a b → Forward k →
      (∀ c d, w.Same c d → w.Agree limit (k c) (k' d)) →
      w.Agree limit (p.attempt a k) (p.attempt b k'))
    {k k' : Cursor → Option Cursor} (hk : Forward k)
    (hkk : ∀ c d, w.Same c d → w.Agree limit (k c) (k' d)) {bound bound' : Text} {a b : Cursor}
    (hab : w.Same a b) (hbound : a.rest.length ≤ bound.length)
    (hbound' : b.rest.length ≤ bound'.length) :
    w.Agree limit (repeatMost p.attempt bound a k) (repeatMost p.attempt bound' b k') := by
  induction bound generalizing a b bound' with
  | nil =>
    have hb : b.rest = [] := by
      have := hab.rest_eq
      simp_all
    cases bound' with
    | nil => exact hkk a b hab
    | cons y bound' =>
      rw [repeatMost_cons, guarded_eq_none p hb, Option.none_or]
      exact hkk a b hab
  | cons x bound ih =>
    have hforward : Forward fun c => repeatMost p.attempt bound c k := by
      intro c r h
      obtain ⟨d, hcd, hd⟩ := repeatMost_leads attempt_leads h
      exact Nat.le_trans hcd.offset_le (hk d r hd)
    rw [repeatMost_cons]
    cases bound' with
    | nil =>
      have hb : b.rest = [] := by simpa using hbound'
      exact (guarded_beyond hlimit p hab hb hforward).or (hkk a b hab)
    | cons y bound' =>
      rw [repeatMost_cons]
      refine Agree.or (guarded_agree hp hab hforward ?_) (hkk a b hab)
      intro c d hcd hmoves
      obtain ⟨hlen, hlen'⟩ := hab.rest_length_lt hcd hmoves
      simp only [List.length_cons] at hbound hbound'
      exact ih hcd (by omega) (by omega)

theorem repeatLeast_agree (hlimit : limit ≤ w.content.length + 1) {p : Pattern}
    (hp : ∀ {a b k k'}, w.Same a b → Forward k →
      (∀ c d, w.Same c d → w.Agree limit (k c) (k' d)) →
      w.Agree limit (p.attempt a k) (p.attempt b k'))
    {k k' : Cursor → Option Cursor} (hk : Forward k)
    (hkk : ∀ c d, w.Same c d → w.Agree limit (k c) (k' d)) {bound bound' : Text} {a b : Cursor}
    (hab : w.Same a b) (hbound : a.rest.length ≤ bound.length)
    (hbound' : b.rest.length ≤ bound'.length) :
    w.Agree limit (repeatLeast p.attempt bound a k) (repeatLeast p.attempt bound' b k') := by
  induction bound generalizing a b bound' with
  | nil =>
    have hb : b.rest = [] := by
      have := hab.rest_eq
      simp_all
    cases bound' with
    | nil => exact hkk a b hab
    | cons y bound' =>
      rw [repeatLeast_cons, guarded_eq_none p hb, Option.or_none]
      exact hkk a b hab
  | cons x bound ih =>
    have hforward : Forward fun c => repeatLeast p.attempt bound c k := by
      intro c r h
      obtain ⟨d, hcd, hd⟩ := repeatLeast_leads attempt_leads h
      exact Nat.le_trans hcd.offset_le (hk d r hd)
    rw [repeatLeast_cons]
    cases bound' with
    | nil =>
      have hb : b.rest = [] := by simpa using hbound'
      rw [repeatLeast, ← Option.or_none (o := k' b)]
      exact (hkk a b hab).or (guarded_beyond hlimit p hab hb hforward)
    | cons y bound' =>
      rw [repeatLeast_cons]
      refine Agree.or (hkk a b hab) (guarded_agree hp hab hforward ?_)
      intro c d hcd hmoves
      obtain ⟨hlen, hlen'⟩ := hab.rest_length_lt hcd hmoves
      simp only [List.length_cons] at hbound hbound'
      exact ih hcd (by omega) (by omega)

theorem attempt_agree (hlimit : limit ≤ w.content.length + 1) {p : Pattern}
    (hp : p.Every (w.Respects limit) fun _ => True) {a b : Cursor} (hab : w.Same a b)
    {k k' : Cursor → Option Cursor} (hk : Forward k)
    (hkk : ∀ c d, w.Same c d → w.Agree limit (k c) (k' d)) :
    w.Agree limit (p.attempt a k) (p.attempt b k') := by
  induction p generalizing a b k k' with
  | nothing => exact hkk a b hab
  | one accepts =>
    have hoffset := hab.offset_eq
    simp only [attempt]
    cases hb : b.rest with
    | nil =>
      -- The stretch ends here, so a character that is accepted in the text lies behind it.
      refine .of_beyond ?_ fun _ => rfl
      intro r h
      split at h
      next => cases h
      next x rest ha =>
        rw [Option.ite_none_right_eq_some] at h
        have hle := hk a.next r h.2
        have hlen := hab.length_eq
        have hnext : a.next.offset = a.offset + 1 := by simp [Cursor.next, ha]
        rw [hb, List.length_nil] at hlen
        omega
    | cons x rest =>
      have ha : a.rest = x :: (rest ++ w.tail) := by rw [hab.rest_eq, hb, List.cons_append]
      rw [ha]
      by_cases hx : accepts x = true
      · simp only [hx, if_true]
        exact hkk _ _ (hab.next (by simp [hb]))
      · simp only [hx, Bool.false_eq_true, if_false]
        exact .none
  | check holds =>
    obtain ⟨hback, hforth⟩ := hp a b hab
    simp only [attempt]
    by_cases hb : holds b.before b.rest = true
    · rw [if_pos hb, if_pos (hback hb)]
      exact hkk a b hab
    · rw [if_neg hb]
      split
      next ha =>
        refine .of_beyond ?_ fun _ => rfl
        intro r hr
        have hle := hk a r hr
        have hoffset := hab.offset_eq
        have hout : ¬ b.offset < limit := fun hlt => hb (hforth hlt ha)
        omega
      next => exact .none
  | seq p q ihp ihq =>
    refine ihp hp.1 hab (hk.attempt q) ?_
    intro c d hcd
    exact ihq hp.2 hcd hk hkk
  | alt p q ihp ihq =>
    rw [attempt_alt, attempt_alt]
    exact (ihp hp.1 hab hk hkk).or (ihq hp.2 hab hk hkk)
  | many p ih =>
    exact repeatMost_agree hlimit (fun hab hk hkk => ih hp hab hk hkk) hk hkk hab (Nat.le_refl _)
      (Nat.le_refl _)
  | few p ih =>
    exact repeatLeast_agree hlimit (fun hab hk hkk => ih hp hab hk hkk) hk hkk hab (Nat.le_refl _)
      (Nat.le_refl _)
  | capture label p ih =>
    refine ih hp.2 hab ?_ ?_
    · intro c r h
      exact hk (c.capture a label) r h
    · intro c d hcd
      exact hkk _ _ (hab.capture hcd label)

theorem fitAt?_agree (hlimit : limit ≤ w.content.length + 1) {p : Pattern}
    (hp : p.Every (w.Respects limit) fun _ => True) {a b : Cursor} (hab : w.Same a b) :
    w.Agree limit (p.fitAt? a) (p.fitAt? b) :=
  attempt_agree hlimit hp hab.fresh forward_some fun _ _ hcd => .some hcd

theorem attempt_same (hlimit : limit ≤ w.content.length + 1) {p : Pattern}
    (hp : p.Every (w.Respects limit) fun _ => True) {a b c : Cursor} (hab : w.Same a b)
    (h : p.attempt a some = some c) (hlt : c.offset < w.start + limit) :
    ∃ e, p.attempt b some = some e ∧ w.Same c e :=
  (attempt_agree hlimit hp hab forward_some fun _ _ hcd => .some hcd).of_some c h hlt

theorem fitAt?_same (hlimit : limit ≤ w.content.length + 1) {p : Pattern}
    (hp : p.Every (w.Respects limit) fun _ => True) {a b c : Cursor} (hab : w.Same a b)
    (h : p.fitAt? a = some c) (hlt : c.offset < w.start + limit) :
    ∃ e, p.fitAt? b = some e ∧ w.Same c e :=
  attempt_same hlimit hp hab.fresh h hlt

theorem respects_of_before (holds : Option Char → Bool) :
    w.Respects limit fun before _ => holds before := by
  intro a b hab
  rw [hab.before_eq]
  exact ⟨id, fun _ => id⟩

/-- No word goes on behind the end of the stretch. -/
def Clean (w : Cut) : Prop :=
  w.content.getLast?.any isWordChar = true → w.tail.head?.any isWordChar = false

/-- A word edge in the stretch is one in the text. At the end of the stretch the text need not have one,
so the limit stays in front of it. -/
theorem respects_wordEdge (hclean : w.Clean) (hlimit : limit ≤ w.content.length) :
    w.Respects limit fun before rest => isWordEdge before rest.head? := by
  intro a b hab
  cases hb : b.rest with
  | cons x rest =>
    rw [hab.before_eq, hab.rest_eq, hb]
    exact ⟨id, fun _ => id⟩
  | nil =>
    obtain ⟨lead, hcontent, hoffset, hbefore⟩ := hab.stands
    rw [hb, List.append_nil] at hcontent
    rw [hab.before_eq, hab.rest_eq, hb, hbefore, List.nil_append, ← hcontent]
    refine ⟨?_, fun hlt => ?_⟩
    · intro h
      have hword : w.content.getLast?.any isWordChar = true := by simpa [isWordEdge] using h
      simp [isWordEdge, hword, hclean hword]
    · rw [hoffset, ← hcontent] at hlt
      omega

end Cut

end CodeGraft
