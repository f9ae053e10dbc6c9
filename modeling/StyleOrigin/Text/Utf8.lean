import StyleOrigin.Text.Basic

/-!
Reading bytes as UTF-8, strictly: no overlong form, no surrogate, nothing above U+10FFFF. The first
fault is reported with the bytes it concerns, which are the longest start of a well-formed sequence.

* `Utf8.decode`: the text, or the first fault.
* `Utf8.Fault.message`: the wording of a fault.
-/
set_option autoImplicit false

namespace StyleOrigin.Utf8

inductive Cause
  | invalidStart
  | invalidContinuation
  | unexpectedEnd
deriving DecidableEq, Repr

/-- The first fault in a byte sequence: its cause, where it starts, and the bytes it concerns. -/
structure Fault where
  cause : Cause
  offset : Nat
  bytes : List UInt8
deriving DecidableEq, Repr

def Cause.message : Cause → Text
  | .invalidStart => "invalid start byte"
  | .invalidContinuation => "invalid continuation byte"
  | .unexpectedEnd => "unexpected end of data"

/-- The wording of a fault: one byte is named by its value, several by their offsets. -/
def Fault.message (fault : Fault) : Text :=
  let what :=
    match fault.bytes with
    | [byte] =>
      "byte 0x" ++ Text.zeroPadded 2 (Text.ofNatHex byte.toNat) ++ " in position "
        ++ Text.ofNat fault.offset
    | bytes =>
      "bytes in position " ++ Text.ofNat fault.offset ++ "-"
        ++ Text.ofNat (fault.offset + bytes.length - 1)
  "'utf-8' codec can't decode " ++ what ++ ": " ++ fault.cause.message

/-- The number of continuation bytes that a start byte asks for, with the range of the first of them. -/
def continuations? (start : UInt8) : Option (Nat × UInt8 × UInt8) :=
  if start < 0x80 then some (0, 0x80, 0xBF)
  else if start < 0xC2 then none
  else if start < 0xE0 then some (1, 0x80, 0xBF)
  else if start = 0xE0 then some (2, 0xA0, 0xBF)
  else if start = 0xED then some (2, 0x80, 0x9F)
  else if start < 0xF0 then some (2, 0x80, 0xBF)
  else if start = 0xF0 then some (3, 0x90, 0xBF)
  else if start < 0xF4 then some (3, 0x80, 0xBF)
  else if start = 0xF4 then some (3, 0x80, 0x8F)
  else none

/-- The bits of its character that a start byte carries. -/
def startBits (count : Nat) (start : UInt8) : Nat :=
  match count with
  | 0 => start.toNat
  | 1 => start.toNat - 0xC0
  | 2 => start.toNat - 0xE0
  | _ => start.toNat - 0xF0

/-- The sequence being read: its bytes so far, newest first, the bits of its character, how many
bytes it still asks for, and the range of the next. -/
structure Pending where
  bytes : List UInt8
  bits : Nat
  missing : Nat
  low : UInt8
  high : UInt8

/-- Reads bytes at an offset, in the middle of a sequence or (`none`) between two. -/
def decodeFrom : Nat → Option Pending → List UInt8 → Except Fault Text
  | _, none, [] => .ok []
  | offset, some sequence, [] =>
    .error ⟨.unexpectedEnd, offset - sequence.bytes.length, sequence.bytes.reverse⟩
  | offset, none, byte :: rest =>
    match continuations? byte with
    | none => .error ⟨.invalidStart, offset, [byte]⟩
    | some (0, _, _) => (Char.ofNat byte.toNat :: ·) <$> decodeFrom (offset + 1) none rest
    | some (count, low, high) =>
      decodeFrom (offset + 1) (some ⟨[byte], startBits count byte, count, low, high⟩) rest
  | offset, some sequence, byte :: rest =>
    if sequence.low ≤ byte && byte ≤ sequence.high then
      let bits := sequence.bits * 64 + (byte.toNat - 0x80)
      if sequence.missing = 1 then (Char.ofNat bits :: ·) <$> decodeFrom (offset + 1) none rest
      else
        decodeFrom (offset + 1)
          (some ⟨byte :: sequence.bytes, bits, sequence.missing - 1, 0x80, 0xBF⟩) rest
    else .error ⟨.invalidContinuation, offset - sequence.bytes.length, sequence.bytes.reverse⟩

def decode (bytes : List UInt8) : Except Fault Text :=
  decodeFrom 0 none bytes

end StyleOrigin.Utf8
