import CodeGraft.Text.Utf8
import Mathlib.Tactic.SplitIfs

/-!
# Encoding and decoding

Strict decoding takes back what encoding does, and it accepts nothing else: the bytes of a text that
can be decoded are its encoding.
-/

namespace CodeGraft.Utf8

theorem lead?_one {b : Nat} (h : b < 0x80) : lead? b = some ⟨0, 0x80, 0xBF, b⟩ := by
  rw [lead?, if_pos h]

theorem lead?_two {b : Nat} (h : 0xC2 ≤ b) (h' : b < 0xE0) :
    lead? b = some ⟨1, 0x80, 0xBF, b - 0xC0⟩ := by
  rw [lead?, if_neg (by omega), if_neg (by omega), if_pos h']

theorem lead?_three {b : Nat} (h : 0xE0 ≤ b) (h' : b < 0xF0) :
    lead? b = some ⟨2, if b = 0xE0 then 0xA0 else 0x80, if b = 0xED then 0x9F else 0xBF,
      b - 0xE0⟩ := by
  rw [lead?, if_neg (by omega), if_neg (by omega), if_neg (by omega), if_pos h']

theorem lead?_four {b : Nat} (h : 0xF0 ≤ b) (h' : b < 0xF5) :
    lead? b = some ⟨3, if b = 0xF0 then 0x90 else 0x80, if b = 0xF4 then 0x8F else 0xBF,
      b - 0xF0⟩ := by
  rw [lead?, if_neg (by omega), if_neg (by omega), if_neg (by omega), if_neg (by omega), if_pos h']

theorem lead?_cases {b : Nat} {lead : Lead} (h : lead? b = some lead) :
    b < 0x80 ∨ (0xC2 ≤ b ∧ b < 0xE0) ∨ (0xE0 ≤ b ∧ b < 0xF0) ∨ (0xF0 ≤ b ∧ b < 0xF5) := by
  unfold lead? at h
  split_ifs at h <;> omega

theorem readFollowing_cons {count low high bits : Nat} {b : UInt8} {bytes : Bytes}
    (h : low ≤ b.toNat ∧ b.toNat ≤ high) :
    readFollowing (count + 1) low high bits (b :: bytes) =
      ((readFollowing count 0x80 0xBF (bits * 64 + (b.toNat - 0x80)) bytes).1 + 1,
        (readFollowing count 0x80 0xBF (bits * 64 + (b.toNat - 0x80)) bytes).2) := by
  rw [readFollowing, if_pos h]

theorem exists_of_readFollowing {count low high bits taken code : Nat} {bytes : Bytes}
    (h : readFollowing (count + 1) low high bits bytes = (taken, .ok code)) :
    ∃ b rest more, bytes = b :: rest ∧ low ≤ b.toNat ∧ b.toNat ≤ high ∧ taken = more + 1 ∧
      readFollowing count 0x80 0xBF (bits * 64 + (b.toNat - 0x80)) rest = (more, .ok code) := by
  cases bytes with
  | nil => simp [readFollowing] at h
  | cons b rest =>
    by_cases hb : low ≤ b.toNat ∧ b.toNat ≤ high
    · rw [readFollowing_cons hb, Prod.mk.injEq] at h
      exact ⟨b, rest, _, rfl, hb.1, hb.2, h.1.symm, Prod.ext rfl h.2⟩
    · rw [readFollowing, if_neg hb, Prod.mk.injEq] at h
      cases h.2

/-! ### One character -/

def bytesOf (v : Nat) : Bytes :=
  if v ≤ 127 then [.ofNat v]
  else if v ≤ 2047 then [.ofNat (v / 64 % 32 + 192), .ofNat (v % 64 + 128)]
  else if v ≤ 65535 then
    [.ofNat (v / 4096 % 16 + 224), .ofNat (v / 64 % 64 + 128), .ofNat (v % 64 + 128)]
  else
    [.ofNat (v / 262144 % 8 + 240), .ofNat (v / 4096 % 64 + 128), .ofNat (v / 64 % 64 + 128),
      .ofNat (v % 64 + 128)]

theorem utf8EncodeChar_eq (c : Char) : String.utf8EncodeChar c = bytesOf c.toNat := rfl

theorem code_cases (c : Char) :
    c.toNat < 0xD800 ∨ (0xDFFF < c.toNat ∧ c.toNat < 0x110000) := c.valid

theorem toNat_ofNat {v : Nat} (h : v < 0xD800 ∨ (0xDFFF < v ∧ v < 0x110000)) :
    (Char.ofNat v).toNat = v := by
  have hvalid : v.isValidChar := h
  rw [Char.ofNat, dif_pos hvalid]
  rfl

theorem byte_toNat {n : Nat} (h : n < 256) : (UInt8.ofNat n).toNat = n :=
  UInt8.toNat_ofNat_of_lt' h

theorem byte_eq {n : Nat} {b : UInt8} (h : n = b.toNat) : UInt8.ofNat n = b := by
  rw [h, UInt8.ofNat_toNat]

theorem firstSegment_bytesOf {v : Nat} (h : v < 0xD800 ∨ (0xDFFF < v ∧ v < 0x110000))
    (rest : Bytes) :
    ∃ first more, bytesOf v = first :: more ∧
      firstSegment first (more ++ rest) = (.char (Char.ofNat v), more.length) := by
  unfold bytesOf
  split_ifs with h1 h2 h3
  · refine ⟨_, _, rfl, ?_⟩
    rw [firstSegment, byte_toNat (by omega), lead?_one (by omega)]
    rfl
  · refine ⟨_, _, rfl, ?_⟩
    rw [firstSegment, byte_toNat (by omega), lead?_two (by omega) (by omega)]
    dsimp only [List.cons_append, List.nil_append]
    rw [readFollowing_cons (by rw [byte_toNat (by omega)]; omega), byte_toNat (by omega)]
    have hcode : (v / 64 % 32 + 192 - 0xC0) * 64 + (v % 64 + 128 - 0x80) = v := by omega
    dsimp only [readFollowing]
    rw [hcode]
    rfl
  · refine ⟨_, _, rfl, ?_⟩
    rw [firstSegment, byte_toNat (by omega), lead?_three (by omega) (by omega)]
    dsimp only [List.cons_append, List.nil_append]
    rw [readFollowing_cons (by rw [byte_toNat (by omega)]; split_ifs <;> omega),
      byte_toNat (by omega), readFollowing_cons (by rw [byte_toNat (by omega)]; omega),
      byte_toNat (by omega)]
    have hcode : ((v / 4096 % 16 + 224 - 0xE0) * 64 + (v / 64 % 64 + 128 - 0x80)) * 64 +
        (v % 64 + 128 - 0x80) = v := by omega
    dsimp only [readFollowing]
    rw [hcode]
    rfl
  · refine ⟨_, _, rfl, ?_⟩
    rw [firstSegment, byte_toNat (by omega), lead?_four (by omega) (by omega)]
    dsimp only [List.cons_append, List.nil_append]
    rw [readFollowing_cons (by rw [byte_toNat (by omega)]; split_ifs <;> omega),
      byte_toNat (by omega), readFollowing_cons (by rw [byte_toNat (by omega)]; omega),
      byte_toNat (by omega), readFollowing_cons (by rw [byte_toNat (by omega)]; omega),
      byte_toNat (by omega)]
    have hcode : (((v / 262144 % 8 + 240 - 0xF0) * 64 + (v / 4096 % 64 + 128 - 0x80)) * 64 +
        (v / 64 % 64 + 128 - 0x80)) * 64 + (v % 64 + 128 - 0x80) = v := by omega
    dsimp only [readFollowing]
    rw [hcode]
    rfl

/-- Each number of following bytes has its own range of code points. -/
theorem bytesOf_one {v : Nat} (h : v ≤ 127) : bytesOf v = [.ofNat v] := by
  rw [bytesOf, if_pos h]

theorem bytesOf_two {v : Nat} (h : 127 < v) (h' : v ≤ 2047) :
    bytesOf v = [.ofNat (v / 64 % 32 + 192), .ofNat (v % 64 + 128)] := by
  rw [bytesOf, if_neg (by omega), if_pos h']

theorem bytesOf_three {v : Nat} (h : 2047 < v) (h' : v ≤ 65535) :
    bytesOf v =
      [.ofNat (v / 4096 % 16 + 224), .ofNat (v / 64 % 64 + 128), .ofNat (v % 64 + 128)] := by
  rw [bytesOf, if_neg (by omega), if_neg (by omega), if_pos h']

theorem bytesOf_four {v : Nat} (h : 65535 < v) :
    bytesOf v = [.ofNat (v / 262144 % 8 + 240), .ofNat (v / 4096 % 64 + 128),
      .ofNat (v / 64 % 64 + 128), .ofNat (v % 64 + 128)] := by
  rw [bytesOf, if_neg (by omega), if_neg (by omega), if_neg (by omega)]

theorem exists_of_firstSegment {first : UInt8} {bytes : Bytes} {c : Char} {taken : Nat}
    (h : firstSegment first bytes = (.char c, taken)) :
    ∃ lead code, lead? first.toNat = some lead ∧ c = Char.ofNat code ∧
      readFollowing lead.follow lead.low lead.high lead.bits bytes = (taken, .ok code) := by
  unfold firstSegment at h
  cases hlead : lead? first.toNat with
  | none => simp [hlead] at h
  | some lead =>
    rcases hread : readFollowing lead.follow lead.low lead.high lead.bits bytes with ⟨n, e | code⟩
    · simp [hlead, hread] at h
    · simp only [hlead, hread, Prod.mk.injEq, Segment.char.injEq] at h
      exact ⟨lead, code, rfl, h.1.symm, by rw [hread, h.2]⟩

theorem bytesOf_firstSegment {first : UInt8} {bytes : Bytes} {c : Char} {taken : Nat}
    (h : firstSegment first bytes = (.char c, taken)) :
    bytesOf c.toNat = first :: bytes.take taken := by
  obtain ⟨lead, code, hlead, rfl, hread⟩ := exists_of_firstSegment h
  rcases lead?_cases hlead with h1 | ⟨h2, h2'⟩ | ⟨h3, h3'⟩ | ⟨h4, h4'⟩
  · obtain rfl := Option.some.inj ((lead?_one h1).symm.trans hlead)
    simp only [readFollowing, Prod.mk.injEq, Except.ok.injEq] at hread
    obtain ⟨rfl, rfl⟩ := hread
    rw [toNat_ofNat (by omega), bytesOf_one (by omega), byte_eq rfl, List.take_zero]
  · obtain rfl := Option.some.inj ((lead?_two h2 h2').symm.trans hlead)
    obtain ⟨b, rest, more, rfl, hlow, hhigh, rfl, hlast⟩ := exists_of_readFollowing hread
    simp only [readFollowing, Prod.mk.injEq, Except.ok.injEq] at hlast
    obtain ⟨rfl, rfl⟩ := hlast
    dsimp only at hlow hhigh
    rw [toNat_ofNat (by omega), bytesOf_two (by omega) (by omega)]
    rw [byte_eq (b := first) (by omega), byte_eq (b := b) (by omega)]
    rfl
  · obtain rfl := Option.some.inj ((lead?_three h3 h3').symm.trans hlead)
    obtain ⟨b, rest, more, rfl, hlow, hhigh, rfl, hnext⟩ := exists_of_readFollowing hread
    obtain ⟨b', rest, more, rfl, hlow', hhigh', rfl, hlast⟩ := exists_of_readFollowing hnext
    simp only [readFollowing, Prod.mk.injEq, Except.ok.injEq] at hlast
    obtain ⟨rfl, rfl⟩ := hlast
    dsimp only at hlow hhigh
    split_ifs at hlow hhigh <;>
    · rw [toNat_ofNat (by omega), bytesOf_three (by omega) (by omega)]
      rw [byte_eq (b := first) (by omega), byte_eq (b := b) (by omega), byte_eq (b := b') (by omega)]
      rfl
  · obtain rfl := Option.some.inj ((lead?_four h4 h4').symm.trans hlead)
    obtain ⟨b, rest, more, rfl, hlow, hhigh, rfl, hnext⟩ := exists_of_readFollowing hread
    obtain ⟨b', rest, more, rfl, hlow', hhigh', rfl, hnext'⟩ := exists_of_readFollowing hnext
    obtain ⟨b'', rest, more, rfl, hlow'', hhigh'', rfl, hlast⟩ := exists_of_readFollowing hnext'
    simp only [readFollowing, Prod.mk.injEq, Except.ok.injEq] at hlast
    obtain ⟨rfl, rfl⟩ := hlast
    dsimp only at hlow hhigh
    split_ifs at hlow hhigh <;>
    · rw [toNat_ofNat (by omega), bytesOf_four (by omega)]
      rw [byte_eq (b := first) (by omega), byte_eq (b := b) (by omega),
        byte_eq (b := b') (by omega), byte_eq (b := b'') (by omega)]
      rfl

theorem segments_encode_cons (c : Char) (bytes : Bytes) :
    segments (String.utf8EncodeChar c ++ bytes) = .char c :: segments bytes := by
  obtain ⟨first, more, hbytes, hsegment⟩ := firstSegment_bytesOf (code_cases c) bytes
  rw [utf8EncodeChar_eq, hbytes, List.cons_append, segments, hsegment, Char.ofNat_toNat]
  simp

theorem textOf_segments_encode (position : Nat) (text : Text) :
    textOf position (segments (encode text)) = .ok text := by
  induction text generalizing position with
  | nil => simp [encode, segments, textOf]
  | cons c text ih =>
    have hencode : encode (c :: text) = String.utf8EncodeChar c ++ encode text := rfl
    rw [hencode, segments_encode_cons, textOf, ih]

theorem decode_encode (text : Text) : decode (encode text) = .ok text :=
  textOf_segments_encode 0 text

theorem encode_of_textOf {position : Nat} {bytes : Bytes} {text : Text}
    (h : textOf position (segments bytes) = .ok text) : encode text = bytes := by
  fun_induction segments bytes generalizing position text with
  | case1 =>
    cases h
    rfl
  | case2 first bytes segment taken hsegment ih =>
    cases segment with
    | malformed => simp [textOf] at h
    | char c =>
      simp only [textOf] at h
      split at h
      next rest hrest =>
        cases h
        have hencode : encode (c :: rest) = String.utf8EncodeChar c ++ encode rest := rfl
        rw [hencode, ih hrest, utf8EncodeChar_eq, bytesOf_firstSegment hsegment, List.cons_append,
          List.take_append_drop]
      next => cases h

theorem encode_of_decode {bytes : Bytes} {text : Text} (h : decode bytes = .ok text) :
    encode text = bytes := encode_of_textOf h

theorem encode_injective {a b : Text} (h : encode a = encode b) : a = b := by
  have hdecode := congrArg decode h
  rw [decode_encode, decode_encode] at hdecode
  exact Except.ok.inj hdecode

end CodeGraft.Utf8
