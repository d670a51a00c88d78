/-! # UTF-8

Texts as bytes and bytes as texts. `decode` reads bytes that need not be valid: each maximal
invalid part (the longest front of a well formed sequence, or a single byte where none begins)
becomes one `none`. The lossy reading replaces such a part by U+FFFD, the strict one refuses it. -/

namespace SourceMetrics.Utf8

set_option autoImplicit false

def encode (text : List Char) : List UInt8 :=
  text.flatMap String.utf8EncodeChar

/-- A sequence of which some bytes have been read: the value of the bits so far, the number of
bytes still to come, and the range of the next byte. -/
structure Opening where
  value : Nat
  /-- How many bytes follow the next one. -/
  remaining : Nat
  /-- The least byte that can come next. -/
  low : UInt8
  /-- The greatest byte that can come next. -/
  high : UInt8

/-- What a byte that begins a sequence of several bytes announces. The narrower ranges of the
second byte keep out overlong forms, surrogates and values above U+10FFFF. -/
def lead? (byte : UInt8) : Option Opening :=
  if 0xC2 ≤ byte && byte ≤ 0xDF then some ⟨byte.toNat - 0xC0, 0, 0x80, 0xBF⟩
  else if byte == 0xE0 then some ⟨0, 1, 0xA0, 0xBF⟩
  else if byte == 0xED then some ⟨0xD, 1, 0x80, 0x9F⟩
  else if 0xE1 ≤ byte && byte ≤ 0xEF then some ⟨byte.toNat - 0xE0, 1, 0x80, 0xBF⟩
  else if byte == 0xF0 then some ⟨0, 2, 0x90, 0xBF⟩
  else if byte == 0xF4 then some ⟨4, 2, 0x80, 0x8F⟩
  else if 0xF1 ≤ byte && byte ≤ 0xF3 then some ⟨byte.toNat - 0xF0, 2, 0x80, 0xBF⟩
  else none

/-- Reads one byte at the start of a sequence: the parts it completes and the sequence it opens. -/
def fresh (byte : UInt8) : List (Option Char) × Option Opening :=
  if byte < 0x80 then ([some (Char.ofNat byte.toNat)], none)
  else
    match lead? byte with
    | some opened => ([], some opened)
    | none => ([none], none)

/-- Reads one byte: the parts it completes and the sequence that is then open, if any. A byte that
cannot continue an open sequence ends it as invalid and begins anew. -/
def step (opened : Option Opening) (byte : UInt8) : List (Option Char) × Option Opening :=
  match opened with
  | none => fresh byte
  | some ⟨value, remaining, low, high⟩ =>
    if low ≤ byte && byte ≤ high then
      let value := value * 64 + (byte.toNat - 0x80)
      match remaining with
      | 0 => ([some (Char.ofNat value)], none)
      | more + 1 => ([], some ⟨value, more, 0x80, 0xBF⟩)
    else
      let (parts, next) := fresh byte
      (none :: parts, next)

/-- The characters and invalid parts of a sequence of bytes, after an open sequence if there is
one. -/
def decodeFrom (opened : Option Opening) : List UInt8 → List (Option Char)
  | [] => if opened.isSome then [none] else []
  | byte :: rest =>
    let (parts, next) := step opened byte
    parts ++ decodeFrom next rest

/-- The characters of a sequence of bytes, with `none` for each maximal invalid part. -/
def decode (bytes : List UInt8) : List (Option Char) :=
  decodeFrom none bytes

/-- The text of the bytes, with U+FFFD for each maximal invalid part. -/
def decodeLossy (bytes : List UInt8) : List Char :=
  (decode bytes).map fun part => part.getD (Char.ofNat 0xFFFD)

/-- The text of the bytes, or `none` if some part is invalid. -/
def decode? (bytes : List UInt8) : Option (List Char) :=
  (decode bytes).mapM id

end SourceMetrics.Utf8
