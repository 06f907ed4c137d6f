import CodeGraft.Text.Basic

/-!
# UTF-8

Bytes fall apart into segments: the encoding of one character, or the longest run of bytes that
starts like an encoding and cannot be completed. Strict decoding refuses the first such run and
says where it is and what is wrong with it; lenient decoding puts a replacement character for
each, or leaves it out.
-/

namespace CodeGraft

abbrev Bytes := List UInt8

namespace Utf8

/-- Why a run of bytes encodes no character. -/
inductive Fault where
  | invalidStart
  | invalidContinuation
  | unexpectedEnd
  deriving DecidableEq, Repr

/-- A piece of a byte string: a character, or a run of bytes that encodes none. -/
inductive Segment where
  | char (c : Char)
  | malformed (bytes : Bytes) (fault : Fault)

structure Lead where
  /-- How many bytes follow. -/
  follow : Nat
  /-- The least second byte. -/
  low : Nat
  /-- The greatest second byte. -/
  high : Nat
  /-- The bits of the code point that the first byte holds. -/
  bits : Nat

/-- The announcement of a first byte, if it can be one. -/
def lead? (b : Nat) : Option Lead :=
  if b < 0x80 then some ⟨0, 0x80, 0xBF, b⟩
  else if b < 0xC2 then none
  else if b < 0xE0 then some ⟨1, 0x80, 0xBF, b - 0xC0⟩
  else if b < 0xF0 then
    some ⟨2, if b = 0xE0 then 0xA0 else 0x80, if b = 0xED then 0x9F else 0xBF, b - 0xE0⟩
  else if b < 0xF5 then
    some ⟨3, if b = 0xF0 then 0x90 else 0x80, if b = 0xF4 then 0x8F else 0xBF, b - 0xF0⟩
  else none

/-- Reads `count` following bytes, the first of them between `low` and `high`. The number says how
many bytes were taken. -/
def readFollowing : (count low high bits : Nat) → Bytes → Nat × Except Fault Nat
  | 0, _, _, bits, _ => (0, .ok bits)
  | _ + 1, _, _, _, [] => (0, .error .unexpectedEnd)
  | count + 1, low, high, bits, b :: bytes =>
    if low ≤ b.toNat ∧ b.toNat ≤ high then
      let (taken, outcome) :=
        readFollowing count 0x80 0xBF (bits * 64 + (b.toNat - 0x80)) bytes
      (taken + 1, outcome)
    else (0, .error .invalidContinuation)

def firstSegment (first : UInt8) (bytes : Bytes) : Segment × Nat :=
  match lead? first.toNat with
  | none => (.malformed [first] .invalidStart, 0)
  | some lead =>
    match readFollowing lead.follow lead.low lead.high lead.bits bytes with
    | (taken, .ok code) => (.char (Char.ofNat code), taken)
    | (taken, .error fault) => (.malformed (first :: bytes.take taken) fault, taken)

def segments : Bytes → List Segment
  | [] => []
  | first :: bytes =>
    let (segment, taken) := firstSegment first bytes
    segment :: segments (bytes.drop taken)
termination_by bytes => bytes.length
decreasing_by
  simp only [List.length_drop, List.length_cons]
  omega

def encode (text : Text) : Bytes := text.flatMap String.utf8EncodeChar

/-- A refusal to decode: the first malformed run, the offset of its first byte, and the fault. -/
structure DecodeError where
  bytes : Bytes
  position : Nat
  fault : Fault

def textOf (position : Nat) : List Segment → Except DecodeError Text
  | [] => .ok []
  | .char c :: rest =>
    match textOf (position + (String.utf8EncodeChar c).length) rest with
    | .ok text => .ok (c :: text)
    | .error e => .error e
  | .malformed bytes fault :: _ => .error ⟨bytes, position, fault⟩

def decode (bytes : Bytes) : Except DecodeError Text := textOf 0 (segments bytes)

def decodeReplacing (bytes : Bytes) : Text :=
  (segments bytes).map fun
    | .char c => c
    | .malformed _ _ => '\uFFFD'

def decodeDropping (bytes : Bytes) : Text :=
  (segments bytes).filterMap fun
    | .char c => some c
    | .malformed _ _ => none

end Utf8

end CodeGraft
