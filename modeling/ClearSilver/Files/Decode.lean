/-
# From bytes to text

A file is read in one of three encodings: UTF-8, ASCII or Latin-1. A fault
names the bytes that cannot be read: in UTF-8 those of a sequence from its
first byte up to the one that does not continue it, or up to the end of the
file. After decoding, the line ends `\r\n` and `\r` become `\n`; a byte order
mark stays.

Key definitions: `Encoding`, `DecodeFault`, `DecodeFault.message`, `Utf8.decode`,
`Encoding.decode`, `Text.withLineFeeds`.
-/
import ClearSilver.Text.Basic

namespace ClearSilver

inductive Encoding
  | utf8 | ascii | latin1
deriving DecidableEq

/-- Why bytes are not text. -/
inductive DecodeReason
  | invalidStart | invalidContinuation | unexpectedEnd | notAscii
deriving DecidableEq

/-- The bytes from `start` to before `stop` cannot be read; `first` is the
first of them. -/
structure DecodeFault where
  reason : DecodeReason
  first : UInt8
  start : Nat
  stop : Nat
deriving DecidableEq

def DecodeReason.text : DecodeReason → Text
  | invalidStart => "invalid start byte"
  | invalidContinuation => "invalid continuation byte"
  | unexpectedEnd => "unexpected end of data"
  | notAscii => "ordinal not in range(128)"

def DecodeReason.encoding : DecodeReason → Text
  | notAscii => "ascii"
  | _ => "utf-8"

/-- The message names one byte by its value and more by their range. -/
def DecodeFault.message (f : DecodeFault) : Text :=
  "'" ++ f.reason.encoding ++ "' codec can't decode " ++
    (if f.stop = f.start + 1 then
      "byte 0x" ++ hexDigits 2 f.first.toNat ++ " in position " ++ decimal f.start
    else "bytes in position " ++ decimal f.start ++ "-" ++ decimal (f.stop - 1)) ++
    ": " ++ f.reason.text

namespace Utf8

/-- A sequence of bytes that is not yet complete: where it began, the bits so
far, how many bytes are still to come and the range the next one is in. -/
structure Pending where
  first : UInt8
  start : Nat
  code : Nat
  more : Nat
  low : Nat
  high : Nat

/-- The sequence that a byte at an offset begins. -/
def lead (b : UInt8) (start : Nat) : Option Pending :=
  let n := b.toNat
  if n < 0xC2 then none
  else if n < 0xE0 then some ⟨b, start, n % 0x20, 1, 0x80, 0xBF⟩
  else if n = 0xE0 then some ⟨b, start, 0, 2, 0xA0, 0xBF⟩
  else if n = 0xED then some ⟨b, start, 0xD, 2, 0x80, 0x9F⟩
  else if n < 0xF0 then some ⟨b, start, n % 0x10, 2, 0x80, 0xBF⟩
  else if n = 0xF0 then some ⟨b, start, 0, 3, 0x90, 0xBF⟩
  else if n < 0xF4 then some ⟨b, start, n % 0x08, 3, 0x80, 0xBF⟩
  else if n = 0xF4 then some ⟨b, start, 4, 3, 0x80, 0x8F⟩
  else none

/-- Reads the bytes from an offset on, inside a sequence or between two. -/
def decodeFrom : Option Pending → (offset : Nat) → List UInt8 → Except DecodeFault Text
  | none, _, [] => .ok []
  | some p, offset, [] => .error ⟨.unexpectedEnd, p.first, p.start, offset⟩
  | none, offset, b :: bs =>
    if b.toNat < 0x80 then (Char.ofNat b.toNat :: ·) <$> decodeFrom none (offset + 1) bs
    else
      match lead b offset with
      | none => .error ⟨.invalidStart, b, offset, offset + 1⟩
      | some p => decodeFrom (some p) (offset + 1) bs
  | some p, offset, b :: bs =>
    if p.low ≤ b.toNat && b.toNat ≤ p.high then
      let code := p.code * 0x40 + b.toNat % 0x40
      if p.more ≤ 1 then (Char.ofNat code :: ·) <$> decodeFrom none (offset + 1) bs
      else
        decodeFrom (some ⟨p.first, p.start, code, p.more - 1, 0x80, 0xBF⟩) (offset + 1) bs
    else .error ⟨.invalidContinuation, p.first, p.start, offset⟩

def decode (bytes : List UInt8) : Except DecodeFault Text := decodeFrom none 0 bytes

end Utf8

/-- Reads ASCII from an offset on. -/
def decodeAscii : (offset : Nat) → List UInt8 → Except DecodeFault Text
  | _, [] => .ok []
  | offset, b :: bs =>
    if b.toNat < 0x80 then (Char.ofNat b.toNat :: ·) <$> decodeAscii (offset + 1) bs
    else .error ⟨.notAscii, b, offset, offset + 1⟩

/-- The text that bytes are in an encoding. -/
def Encoding.decode : Encoding → List UInt8 → Except DecodeFault Text
  | utf8, bytes => Utf8.decode bytes
  | ascii, bytes => decodeAscii 0 bytes
  | latin1, bytes => .ok (bytes.map fun b => Char.ofNat b.toNat)

/-- The text with every line end as a line feed. -/
def Text.withLineFeeds : Text → Text
  | '\r' :: '\n' :: r => '\n' :: withLineFeeds r
  | '\r' :: r => '\n' :: withLineFeeds r
  | c :: r => c :: withLineFeeds r
  | [] => []

end ClearSilver
