/-!
# Texts as bytes

Files hold texts in UTF-8. Decoding stops at the first fault and says what is wrong with which
bytes: a byte that begins no character, a byte that cannot continue the character begun, or an
incomplete character at the end of the data. Overlong forms, surrogates and codes above U+10FFFF are
refused at their second byte.
-/

namespace InlineVariants.Text.Utf8

/-- What is wrong with some bytes. -/
inductive Fault where
  | startByte
  | continuationByte
  | truncated
deriving DecidableEq, Repr, Inhabited

/-- The wording of a fault. -/
def Fault.text : Fault → String
  | startByte => "invalid start byte"
  | continuationByte => "invalid continuation byte"
  | truncated => "unexpected end of data"

/-- A fault, the offset of the first byte concerned, that byte, and how many bytes are concerned. -/
structure DecodeError where
  fault : Fault
  offset : Nat
  byte : UInt8
  width : Nat
deriving DecidableEq, Repr, Inhabited

/-- A byte as two hexadecimal digits. -/
def hexByte (b : UInt8) : String :=
  String.ofList [Nat.digitChar (b.toNat / 16), Nat.digitChar (b.toNat % 16)]

/-- The wording of an error. -/
def DecodeError.message (e : DecodeError) : String :=
  "'utf-8' codec can't decode " ++
    (if e.width = 1 then "byte 0x" ++ hexByte e.byte ++ " in position " ++ toString e.offset
     else "bytes in position " ++ toString e.offset ++ "-" ++ toString (e.offset + e.width - 1)) ++
    ": " ++ e.fault.text

/-- Whether a byte continues a character. -/
def isContinuation (b : UInt8) : Bool := 0x80 ≤ b && b ≤ 0xbf

/-- The six low bits of a continuation byte. -/
def low (b : UInt8) : Nat := b.toNat % 64

/-- What a character begins with: the character and its width, or a fault and its width. -/
abbrev Step := Except (Fault × Nat) (Char × Nat)

/-- A character of two bytes. -/
def decode2 (b : UInt8) : List UInt8 → Step
  | c :: _ =>
    if isContinuation c then .ok (Char.ofNat (b.toNat % 32 * 64 + low c), 2)
    else .error (.continuationByte, 1)
  | [] => .error (.truncated, 1)

/-- Whether a byte may stand second in a character of three bytes. -/
def isSecond3 (b c : UInt8) : Bool :=
  (if b = 0xe0 then 0xa0 else 0x80) ≤ c && c ≤ (if b = 0xed then 0x9f else 0xbf)

/-- A character of three bytes. -/
def decode3 (b : UInt8) : List UInt8 → Step
  | c :: rest =>
    if !isSecond3 b c then .error (.continuationByte, 1)
    else match rest with
      | d :: _ =>
        if isContinuation d then
          .ok (Char.ofNat ((b.toNat % 16 * 64 + low c) * 64 + low d), 3)
        else .error (.continuationByte, 2)
      | [] => .error (.truncated, 2)
  | [] => .error (.truncated, 1)

/-- Whether a byte may stand second in a character of four bytes. -/
def isSecond4 (b c : UInt8) : Bool :=
  (if b = 0xf0 then 0x90 else 0x80) ≤ c && c ≤ (if b = 0xf4 then 0x8f else 0xbf)

/-- A character of four bytes. -/
def decode4 (b : UInt8) : List UInt8 → Step
  | c :: rest =>
    if !isSecond4 b c then .error (.continuationByte, 1)
    else match rest with
      | d :: rest' =>
        if !isContinuation d then .error (.continuationByte, 2)
        else match rest' with
          | e :: _ =>
            if isContinuation e then
              .ok (Char.ofNat (((b.toNat % 8 * 64 + low c) * 64 + low d) * 64 + low e), 4)
            else .error (.continuationByte, 3)
          | [] => .error (.truncated, 3)
      | [] => .error (.truncated, 2)
  | [] => .error (.truncated, 1)

/-- The character that begins with a byte. -/
def decodeOne (b : UInt8) (rest : List UInt8) : Step :=
  if b < 0x80 then .ok (Char.ofNat b.toNat, 1)
  else if b < 0xc2 then .error (.startByte, 1)
  else if b < 0xe0 then decode2 b rest
  else if b < 0xf0 then decode3 b rest
  else if b < 0xf5 then decode4 b rest
  else .error (.startByte, 1)

/-- Decodes bytes of which the first `skip` belong to a character that has been decoded; `offset`
counts the bytes in front. -/
def decodeFrom : (skip offset : Nat) → List UInt8 → Except DecodeError (List Char)
  | _, _, [] => .ok []
  | skip + 1, offset, _ :: rest => decodeFrom skip (offset + 1) rest
  | 0, offset, b :: rest =>
    match decodeOne b rest with
    | .ok (c, width) => (decodeFrom (width - 1) (offset + 1) rest).map (c :: ·)
    | .error (fault, width) => .error ⟨fault, offset, b, width⟩

/-- Decodes a whole text. -/
def decode (bytes : List UInt8) : Except DecodeError (List Char) := decodeFrom 0 0 bytes

/-- The bytes of a text. -/
def encode (cs : List Char) : List UInt8 := (String.ofList cs).toUTF8.toList

end InlineVariants.Text.Utf8

namespace InlineVariants.Text

/-- The text with every kind of line break, `\r\n` and a lone `\r` included, as one line feed. -/
def unifyNewlines : List Char → List Char
  | '\r' :: '\n' :: cs => '\n' :: unifyNewlines cs
  | '\r' :: cs => '\n' :: unifyNewlines cs
  | c :: cs => c :: unifyNewlines cs
  | [] => []

end InlineVariants.Text
