import CodeGraft.Json.Reader
import CodeGraft.Json.Writer
import CodeGraft.Proofs.Encoding

/-!
# Written JSON is read back

A value without numbers that has been written is read back as it was, whatever is written behind it,
by a reader that goes down as many levels as there are in the value.
-/

namespace CodeGraft.Json

open Text

theorem hexValue?_hexDigit : ∀ d < 16, hexValue? (hexDigit d) = some d := by decide

theorem hexDigits_four (v : Nat) :
    hexDigits 4 v = [hexDigit (v / 4096 % 16), hexDigit (v / 256 % 16), hexDigit (v / 16 % 16),
      hexDigit (v % 16)] := by
  simp [hexDigits, Nat.div_div_eq_div_mul]

theorem readUnit_hexDigits {v : Nat} (h : v < 0x10000) (rest : Text) :
    readUnit (hexDigits 4 v ++ rest) = some (v, rest) := by
  have hunit : (v / 4096 % 16 * 16 + v / 256 % 16) * 256 + v / 16 % 16 * 16 + v % 16 = v := by omega
  rw [hexDigits_four]
  simp only [List.cons_append, List.nil_append, readUnit, bind, Option.bind]
  rw [hexValue?_hexDigit _ (by omega), hexValue?_hexDigit _ (by omega),
    hexValue?_hexDigit _ (by omega), hexValue?_hexDigit _ (by omega)]
  simp only [hunit]

theorem readEscape_unit {v : Nat} (h : v < 0xD800 ∨ 0xDFFF < v) (h' : v < 0x10000) (rest : Text) :
    readEscape ('u' :: (hexDigits 4 v ++ rest)) = some (Char.ofNat v, rest) := by
  simp only [readEscape, readUnit_hexDigits h', bind, Option.bind]
  rw [if_neg (by omega), if_neg (by omega)]

theorem readEscape_halves {n : Nat} (h : n < 0x100000) (rest : Text) :
    readEscape ('u' :: (hexDigits 4 (0xD800 + n / 0x400) ++
        (unitEscape (0xDC00 + n % 0x400) ++ rest))) = some (Char.ofNat (0x10000 + n), rest) := by
  have hlow : readLowHalf (0xD800 + n / 0x400) (unitEscape (0xDC00 + n % 0x400) ++ rest) =
      some (Char.ofNat (0x10000 + n), rest) := by
    have hcode : 0x10000 + (0xD800 + n / 0x400 - 0xD800) * 0x400 +
        (0xDC00 + n % 0x400 - 0xDC00) = 0x10000 + n := by omega
    simp only [unitEscape, List.cons_append, readLowHalf, readUnit_hexDigits (v := 0xDC00 + n % 0x400)
      (by omega), bind, Option.bind]
    rw [if_pos (by omega), hcode]
  simp only [readEscape, readUnit_hexDigits (v := 0xD800 + n / 0x400) (by omega), bind, Option.bind]
  rw [if_pos (by omega), hlow]
  rfl

theorem readText_escape {bound : Nat} {rest : Text} {c : Char} (escape : Text)
    (h : readEscape (escape ++ rest) = some (c, rest)) :
    readText (bound + 1) ('\\' :: (escape ++ rest)) =
      (readText bound rest).map fun found => (c :: found.1, found.2) := by
  rw [readText, if_neg (by decide), if_pos rfl]
  simp only [h, bind, Option.bind]
  cases readText bound rest <;> rfl

theorem readText_escapedChar (bound : Nat) (c : Char) (rest : Text) :
    readText (bound + 1) (escapedChar c ++ rest) =
      (readText bound rest).map fun found => (c :: found.1, found.2) := by
  have hcode := Utf8.code_cases c
  by_cases hshort : c = '"' ∨ c = '\\' ∨ c = '\n' ∨ c = '\r' ∨ c = '\t' ∨ c = '\x08' ∨ c = '\x0c'
  · rcases hshort with rfl | rfl | rfl | rfl | rfl | rfl | rfl <;>
    exact readText_escape [_] rfl
  simp only [not_or] at hshort
  obtain ⟨hquote, hslash, hfeed, hreturn, htab, hback, hform⟩ := hshort
  rw [escapedChar, if_neg hquote, if_neg hslash, if_neg hfeed, if_neg hreturn, if_neg htab,
    if_neg hback, if_neg hform]
  split_ifs with hplain hunit
  · rw [List.singleton_append, readText, if_neg hquote, if_neg hslash, if_neg (by omega)]
    simp only [bind, Option.bind]
    cases readText bound rest <;> rfl
  · refine readText_escape ('u' :: hexDigits 4 c.toNat) ?_
    rw [List.cons_append, readEscape_unit (by omega) hunit, Char.ofNat_toNat]
  · have hn : 0x10000 + (c.toNat - 0x10000) = c.toNat := by omega
    refine readText_escape ('u' :: (hexDigits 4 (0xD800 + (c.toNat - 0x10000) / 0x400) ++
      unitEscape (0xDC00 + (c.toNat - 0x10000) % 0x400))) ?_
    rw [List.cons_append, List.append_assoc, readEscape_halves (by omega), hn, Char.ofNat_toNat]

theorem readText_escaped {bound : Nat} {t : Text} (h : t.length < bound) (rest : Text) :
    readText bound (t.flatMap escapedChar ++ '"' :: rest) = some (t, rest) := by
  induction t generalizing bound with
  | nil =>
    obtain ⟨bound, rfl⟩ := Nat.exists_eq_add_one.mpr h
    simp [readText]
  | cons c t ih =>
    obtain ⟨bound, rfl⟩ := Nat.exists_eq_add_one.mpr (Nat.zero_lt_of_lt h)
    rw [List.length_cons] at h
    rw [List.flatMap_cons, List.append_assoc, readText_escapedChar, ih (by omega)]
    rfl

theorem escapedChar_ne_nil (c : Char) : escapedChar c ≠ [] := by
  unfold escapedChar unitEscape
  split_ifs <;> simp

theorem length_le_length_escaped (t : Text) : t.length ≤ (t.flatMap escapedChar).length := by
  induction t with
  | nil => simp
  | cons c t ih =>
    have hc := List.length_pos_iff.mpr (escapedChar_ne_nil c)
    rw [List.flatMap_cons, List.length_append, List.length_cons]
    omega

theorem skipBlanks_newLine (depth : Nat) (t : Text) :
    skipBlanks (newLine depth ++ t) = skipBlanks t := by
  rw [skipBlanks, newLine, List.cons_append, List.dropWhile_cons_of_pos (by rfl), skipBlanks]
  induction 2 * depth with
  | zero => rfl
  | succ n ih => rw [List.replicate_succ, List.cons_append, List.dropWhile_cons_of_pos (by rfl), ih]

/-- The characters that written values without numbers start with. -/
def starts : Text := ['n', 't', 'f', '"', '[', '\x7b']

theorem skipBlanks_cons {c : Char} (h : c ∉ [' ', '\t', '\n', '\r']) (t : Text) :
    skipBlanks (c :: t) = c :: t :=
  List.dropWhile_cons_of_neg (by simpa [and_assoc] using h)

theorem skipBlanks_of_starts {c : Char} (h : c ∈ starts) (t : Text) :
    skipBlanks (c :: t) = c :: t := by
  have hall : starts.all fun c => c ∉ [' ', '\t', '\n', '\r'] := by decide
  have hc : c ∉ [' ', '\t', '\n', '\r'] := by simpa using List.all_eq_true.mp hall c h
  exact skipBlanks_cons hc t

theorem Value.putField_of_not_mem {key : Text} {value : Value} {fields : List (Text × Value)}
    (h : key ∉ fields.map (·.1)) : putField key value fields = fields ++ [(key, value)] := by
  induction fields with
  | nil => rfl
  | cons field fields ih =>
    rw [List.map_cons, List.mem_cons, not_or] at h
    rw [putField, if_neg (Ne.symm h.1), ih h.2, List.cons_append]

theorem Value.foldl_putField {fields set : List (Text × Value)}
    (h : ((set ++ fields).map (·.1)).Nodup) :
    fields.foldl (fun set field => putField field.1 field.2 set) set = set ++ fields := by
  induction fields generalizing set with
  | nil => simp
  | cons field fields ih =>
    have hnew : field.1 ∉ set.map (·.1) := by
      rw [List.map_append, List.map_cons] at h
      intro hmem
      exact (List.nodup_append.mp h).2.2 field.1 hmem field.1 (by simp) rfl
    rw [List.foldl_cons, putField_of_not_mem hnew]
    have hassoc : set ++ [(field.1, field.2)] ++ fields = set ++ field :: fields := by simp
    rw [ih (by rw [hassoc]; exact h), hassoc]

theorem Value.ofFields_of_nodup {fields : List (Text × Value)} (h : (fields.map (·.1)).Nodup) :
    ofFields fields = object fields := by
  rw [ofFields, foldl_putField (by simpa using h), List.nil_append]

namespace Value

mutual

/-- A value without numbers, with at most `levels` levels of lists and objects. The fields of an
object have names of their own. -/
def IsPlain : (levels : Nat) → Value → Prop
  | _, null => True
  | _, bool _ => True
  | _, number _ => False
  | _, text _ => True
  | 0, list _ => False
  | levels + 1, list items => ArePlain levels items
  | 0, object _ => False
  | levels + 1, object fields => (fields.map (·.1)).Nodup ∧ HoldPlain levels fields

def ArePlain : (levels : Nat) → List Value → Prop
  | _, [] => True
  | levels, item :: items => item.IsPlain levels ∧ ArePlain levels items

def HoldPlain : (levels : Nat) → List (Text × Value) → Prop
  | _, [] => True
  | levels, (_, value) :: fields => value.IsPlain levels ∧ HoldPlain levels fields

end

variable {levels : Nat}

theorem arePlain_iff {items : List Value} :
    ArePlain levels items ↔ ∀ item ∈ items, item.IsPlain levels := by
  induction items with
  | nil => simp [ArePlain]
  | cons item items ih => simp [ArePlain, ih]

theorem exists_start {v : Value} (h : v.IsPlain levels) (depth : Nat) :
    ∃ c ∈ starts, ∃ tail, v.renderAt depth = c :: tail := by
  cases v with
  | null => exact ⟨'n', by decide, _, by rw [renderAt]; rfl⟩
  | bool b =>
    cases b with
    | true => exact ⟨'t', by decide, _, by rw [renderAt]; rfl⟩
    | false => exact ⟨'f', by decide, _, by rw [renderAt]; rfl⟩
  | number n => exact absurd h (by simp [IsPlain])
  | text t => exact ⟨'"', by decide, _, by rw [renderAt]; rfl⟩
  | list items =>
    cases items with
    | nil => exact ⟨'[', by decide, _, by rw [renderAt]; rfl⟩
    | cons item items => exact ⟨'[', by decide, _, by rw [renderAt]; rfl⟩
  | object fields =>
    cases fields with
    | nil => exact ⟨'\x7b', by decide, _, by rw [renderAt]; rfl⟩
    | cons field fields => exact ⟨'\x7b', by decide, _, by rw [renderAt]; rfl⟩

end Value

open Value

theorem renderAt_list (depth : Nat) (item : Value) (items : List Value) (rest : Text) :
    (list (item :: items)).renderAt depth ++ rest =
      '[' :: (newLine (depth + 1) ++ (item.renderAt (depth + 1) ++
        (renderItems (depth + 1) items ++ (newLine depth ++ ']' :: rest)))) := by
  simp [renderAt, glue]

theorem renderItems_cons (depth : Nat) (item : Value) (items : List Value) (rest : Text) :
    renderItems depth (item :: items) ++ rest =
      ',' :: (newLine depth ++ (item.renderAt depth ++ (renderItems depth items ++ rest))) := by
  simp [renderItems, glue]

theorem renderAt_object (depth : Nat) (key : Text) (value : Value) (fields : List (Text × Value))
    (rest : Text) :
    (object ((key, value) :: fields)).renderAt depth ++ rest =
      '\x7b' :: (newLine (depth + 1) ++ (escaped key ++ ':' :: ' ' ::
        (value.renderAt (depth + 1) ++ (renderFields (depth + 1) fields ++
          (newLine depth ++ '\x7d' :: rest))))) := by
  simp [renderAt, glue]

theorem renderFields_cons (depth : Nat) (key : Text) (value : Value)
    (fields : List (Text × Value)) (rest : Text) :
    renderFields depth ((key, value) :: fields) ++ rest =
      ',' :: (newLine depth ++ (escaped key ++ ':' :: ' ' ::
        (value.renderAt depth ++ (renderFields depth fields ++ rest)))) := by
  simp [renderFields, glue]

theorem length_renderAt_list (depth : Nat) (item : Value) (items : List Value) :
    (item.renderAt (depth + 1)).length + (renderItems (depth + 1) items).length + 2 <
      ((list (item :: items)).renderAt depth).length := by
  have h := congrArg List.length (renderAt_list depth item items [])
  simp only [newLine, List.append_nil, List.length_cons, List.length_append] at h
  omega

theorem length_renderItems_cons (depth : Nat) (item : Value) (items : List Value) :
    (item.renderAt depth).length + (renderItems depth items).length + 1 <
      (renderItems depth (item :: items)).length := by
  have h := congrArg List.length (renderItems_cons depth item items [])
  simp only [newLine, List.append_nil, List.length_cons, List.length_append] at h
  omega

theorem length_renderAt_object (depth : Nat) (key : Text) (value : Value)
    (fields : List (Text × Value)) :
    (value.renderAt (depth + 1)).length + (renderFields (depth + 1) fields).length + 2 <
      ((object ((key, value) :: fields)).renderAt depth).length := by
  have h := congrArg List.length (renderAt_object depth key value fields [])
  simp only [newLine, List.append_nil, List.length_cons, List.length_append] at h
  omega

theorem length_renderFields_cons (depth : Nat) (key : Text) (value : Value)
    (fields : List (Text × Value)) :
    (value.renderAt depth).length + (renderFields depth fields).length + 1 <
      (renderFields depth ((key, value) :: fields)).length := by
  have h := congrArg List.length (renderFields_cons depth key value fields [])
  simp only [newLine, List.append_nil, List.length_cons, List.length_append] at h
  omega

/-! ### Reading values -/

variable {levels : Nat}

theorem skipBlanks_renderAt {v : Value} (h : v.IsPlain levels) (depth : Nat) (rest : Text) :
    skipBlanks (v.renderAt depth ++ rest) = v.renderAt depth ++ rest := by
  obtain ⟨c, hc, tail, hstart⟩ := exists_start h depth
  rw [hstart, List.cons_append, skipBlanks_of_starts hc]

theorem head?_renderAt {v : Value} (h : v.IsPlain levels) (depth : Nat) (rest : Text) :
    (v.renderAt depth ++ rest).head? ≠ some ']' := by
  obtain ⟨c, hc, tail, hstart⟩ := exists_start h depth
  rw [hstart, List.cons_append, List.head?_cons]
  rintro ⟨rfl⟩
  revert hc
  decide

theorem skipBlanks_escaped (key rest : Text) :
    skipBlanks (escaped key ++ rest) = escaped key ++ rest :=
  skipBlanks_of_starts (by decide) _

theorem readText_quoted (t rest : Text) :
    readText ((t.flatMap escapedChar ++ '"' :: rest).length + 1)
      (t.flatMap escapedChar ++ '"' :: rest) = some (t, rest) := by
  have hlength := length_le_length_escaped t
  exact readText_escaped (by rw [List.length_append]; omega) rest

theorem readValue_list {bound : Nat} {t found : Text} (h : skipBlanks t = found)
    (hfound : found.head? ≠ some ']') :
    readValue (bound + 1) (levels + 1) ('[' :: t) =
      (readItems bound levels found).map fun items => (.list items.1, items.2) := by
  rw [readValue, h]
  split
  next => exact absurd rfl hfound
  next => rfl

theorem readValue_object {bound : Nat} {t found : Text} (h : skipBlanks t = found)
    (hfound : found.head? ≠ some '\x7d') :
    readValue (bound + 1) (levels + 1) ('\x7b' :: t) =
      (readFields bound levels found).map fun fields => (.ofFields fields.1, fields.2) := by
  rw [readValue, h]
  split
  next => exact absurd rfl hfound
  next => rfl

/-- What is written for plain values is read back within a bound. The bounds are twice the lengths
of what is read, as each level takes a step for the list or object and one for the value. -/
structure ReadsBack (bound : Nat) : Prop where
  value : ∀ (levels : Nat) (v : Value) (depth : Nat) (rest : Text), v.IsPlain levels →
    2 * (v.renderAt depth).length ≤ bound →
    readValue bound levels (v.renderAt depth ++ rest) = .ok (v, rest)
  items : ∀ (levels : Nat) (item : Value) (items : List Value) (depth outer : Nat) (rest : Text),
    item.IsPlain levels → ArePlain levels items →
    2 * ((item.renderAt depth).length + (renderItems depth items).length) < bound →
    readItems bound levels (item.renderAt depth ++ (renderItems depth items ++
      (newLine outer ++ ']' :: rest))) = .ok (item :: items, rest)
  fields : ∀ (levels : Nat) (key : Text) (value : Value) (fields : List (Text × Value))
    (depth outer : Nat) (rest : Text), value.IsPlain levels → HoldPlain levels fields →
    2 * ((value.renderAt depth).length + (renderFields depth fields).length) < bound →
    readFields bound levels (escaped key ++ ':' :: ' ' :: (value.renderAt depth ++
      (renderFields depth fields ++ (newLine outer ++ '\x7d' :: rest)))) =
        .ok ((key, value) :: fields, rest)

namespace ReadsBack

variable {bound : Nat}

theorem value_succ (h : ReadsBack bound) (levels : Nat) (v : Value) (depth : Nat) (rest : Text)
    (hv : v.IsPlain levels) (hbound : 2 * (v.renderAt depth).length ≤ bound + 1) :
    readValue (bound + 1) levels (v.renderAt depth ++ rest) = .ok (v, rest) := by
  cases v with
  | null => simp [renderAt, readValue, readWord, orMalformed, after?]
  | bool b => cases b <;> simp [renderAt, readValue, readWord, orMalformed, after?]
  | number n => exact absurd hv (by simp [IsPlain])
  | text t =>
    have hread := readText_quoted t rest
    simp only [renderAt, escaped, List.cons_append, List.append_assoc, List.nil_append, readValue,
      hread, orMalformed]
    rfl
  | list items =>
    obtain _ | levels := levels
    · exact absurd hv (by simp [IsPlain])
    cases items with
    | nil => simp [renderAt, readValue, skipBlanks]
    | cons item items =>
      obtain ⟨hitem, hitems⟩ := hv
      have hlength := length_renderAt_list depth item items
      rw [renderAt_list, readValue_list
        ((skipBlanks_newLine _ _).trans (skipBlanks_renderAt hitem _ _)) (head?_renderAt hitem _ _),
        h.items levels item items _ _ _ hitem hitems (by omega)]
      rfl
  | object fields =>
    obtain _ | levels := levels
    · exact absurd hv (by simp [IsPlain])
    cases fields with
    | nil => simp [renderAt, readValue, skipBlanks]
    | cons field fields =>
      obtain ⟨key, value⟩ := field
      obtain ⟨hkeys, hvalue, hfields⟩ := hv
      have hlength := length_renderAt_object depth key value fields
      rw [renderAt_object, readValue_object
        ((skipBlanks_newLine _ _).trans (skipBlanks_escaped _ _)) (by simp [escaped]),
        h.fields levels key value fields _ _ _ hvalue hfields (by omega), Except.map,
        ofFields_of_nodup hkeys]

theorem items_succ (h : ReadsBack bound) (levels : Nat) (item : Value) (items : List Value)
    (depth outer : Nat) (rest : Text) (hitem : item.IsPlain levels)
    (hitems : ArePlain levels items)
    (hbound : 2 * ((item.renderAt depth).length + (renderItems depth items).length) < bound + 1) :
    readItems (bound + 1) levels (item.renderAt depth ++ (renderItems depth items ++
      (newLine outer ++ ']' :: rest))) = .ok (item :: items, rest) := by
  rw [readItems, h.value levels item depth _ hitem (by omega)]
  cases items with
  | nil =>
    simp only [renderItems, List.nil_append, bind, Except.bind, skipBlanks_newLine]
    rfl
  | cons next items =>
    obtain ⟨hnext, hitems⟩ := hitems
    have hlength := length_renderItems_cons depth next items
    have hrest := h.items levels next items depth outer rest hnext hitems (by omega)
    rw [renderItems_cons]
    simp only [bind, Except.bind, skipBlanks_cons (c := ',') (by decide), skipBlanks_newLine,
      skipBlanks_renderAt hnext, hrest]
    rfl

theorem fields_succ (h : ReadsBack bound) (levels : Nat) (key : Text) (value : Value)
    (fields : List (Text × Value)) (depth outer : Nat) (rest : Text)
    (hvalue : value.IsPlain levels) (hfields : HoldPlain levels fields)
    (hbound : 2 * ((value.renderAt depth).length + (renderFields depth fields).length) < bound + 1) :
    readFields (bound + 1) levels (escaped key ++ ':' :: ' ' :: (value.renderAt depth ++
      (renderFields depth fields ++ (newLine outer ++ '\x7d' :: rest)))) =
        .ok ((key, value) :: fields, rest) := by
  have hblank : ∀ t, skipBlanks (' ' :: t) = skipBlanks t := fun t => List.dropWhile_cons_of_pos rfl
  rw [escaped, List.cons_append, List.append_assoc, List.singleton_append, readFields,
    readText_quoted]
  simp only [orMalformed, bind, Except.bind, skipBlanks_cons (c := ':') (by decide), hblank,
    skipBlanks_renderAt hvalue, h.value levels value depth _ hvalue (by omega)]
  cases fields with
  | nil =>
    simp only [renderFields, List.nil_append, skipBlanks_newLine]
    rfl
  | cons field fields =>
    obtain ⟨next, following⟩ := field
    obtain ⟨hfollowing, hfields⟩ := hfields
    have hlength := length_renderFields_cons depth next following fields
    have hrest := h.fields levels next following fields depth outer rest hfollowing hfields
      (by omega)
    rw [renderFields_cons]
    simp only [skipBlanks_cons (c := ',') (by decide), skipBlanks_newLine, skipBlanks_escaped, hrest]
    rfl

end ReadsBack

theorem readsBack (bound : Nat) : ReadsBack bound := by
  induction bound with
  | zero =>
    refine ⟨fun _ v depth rest hv hbound => ?_, fun _ _ _ _ _ _ _ _ hbound => ?_,
      fun _ _ _ _ _ _ _ _ _ hbound => ?_⟩
    · obtain ⟨c, -, tail, hstart⟩ := exists_start hv depth
      simp [hstart] at hbound
    · exact absurd hbound (Nat.not_lt_zero _)
    · exact absurd hbound (Nat.not_lt_zero _)
  | succ bound ih => exact ⟨ih.value_succ, ih.items_succ, ih.fields_succ⟩

theorem parse_render {v : Value} (h : v.IsPlain levels) : Value.parse levels v.render = .ok v := by
  have hread : readValue (2 * v.render.length + 2) levels (v.render ++ []) = .ok (v, []) :=
    (readsBack _).value levels v 0 [] h (Nat.le_add_right _ 2)
  have hskip : skipBlanks (v.render ++ []) = v.render ++ [] := skipBlanks_renderAt h 0 []
  rw [List.append_nil] at hread hskip
  rw [Value.parse, hskip, hread]
  rfl

theorem return_not_mem_hexDigits (width n : Nat) : '\r' ∉ hexDigits width n := by
  have hall : ∀ d < 16, '\r' ≠ hexDigit d := by decide
  induction width generalizing n with
  | zero => simp [hexDigits]
  | succ width ih => simp [hexDigits, ih, hall (n % 16) (by omega)]

theorem return_not_mem_escapedChar (c : Char) : '\r' ∉ escapedChar c := by
  by_cases hc : c = '\r'
  · subst hc
    decide
  · unfold escapedChar
    split_ifs <;> simp [unitEscape, return_not_mem_hexDigits, Ne.symm hc]

theorem return_not_mem_escaped (t : Text) : '\r' ∉ escaped t := by
  simp [escaped, return_not_mem_escapedChar]

theorem return_not_mem_newLine (depth : Nat) : '\r' ∉ newLine depth := by
  simp [newLine]

mutual

theorem return_not_mem_renderAt :
    ∀ (levels : Nat) (v : Value), v.IsPlain levels → ∀ depth, '\r' ∉ v.renderAt depth
  | _, .null, _, _ => by simp [renderAt]
  | _, .bool b, _, _ => by cases b <;> simp [renderAt]
  | _, .number _, h, _ => absurd h (by simp [IsPlain])
  | _, .text t, _, _ => by
    rw [renderAt]
    exact return_not_mem_escaped t
  | 0, .list _, h, _ => absurd h (by simp [IsPlain])
  | _ + 1, .list [], _, _ => by simp [renderAt]
  | levels + 1, .list (item :: items), h, depth => by
    have hitem := return_not_mem_renderAt levels item h.1 (depth + 1)
    have hitems := return_not_mem_renderItems levels items h.2 (depth + 1)
    simp [renderAt, glue, return_not_mem_newLine, hitem, hitems]
  | 0, .object _, h, _ => absurd h (by simp [IsPlain])
  | _ + 1, .object [], _, _ => by simp [renderAt]
  | levels + 1, .object ((key, value) :: fields), h, depth => by
    have hvalue := return_not_mem_renderAt levels value h.2.1 (depth + 1)
    have hfields := return_not_mem_renderFields levels fields h.2.2 (depth + 1)
    simp [renderAt, glue, return_not_mem_newLine, return_not_mem_escaped, hvalue, hfields]

theorem return_not_mem_renderItems :
    ∀ (levels : Nat) (items : List Value), ArePlain levels items →
      ∀ depth, '\r' ∉ renderItems depth items
  | _, [], _, _ => by simp [renderItems]
  | levels, item :: items, h, depth => by
    have hitem := return_not_mem_renderAt levels item h.1 depth
    have hitems := return_not_mem_renderItems levels items h.2 depth
    simp [renderItems, glue, return_not_mem_newLine, hitem, hitems]

theorem return_not_mem_renderFields :
    ∀ (levels : Nat) (fields : List (Text × Value)), HoldPlain levels fields →
      ∀ depth, '\r' ∉ renderFields depth fields
  | _, [], _, _ => by simp [renderFields]
  | levels, (key, value) :: fields, h, depth => by
    have hvalue := return_not_mem_renderAt levels value h.1 depth
    have hfields := return_not_mem_renderFields levels fields h.2 depth
    simp [renderFields, glue, return_not_mem_newLine, return_not_mem_escaped, hvalue, hfields]

end

end CodeGraft.Json
