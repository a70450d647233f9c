import CompiledResources.Text

/-!
UTF-8. Decoding accepts every byte sequence: each longest run of bytes that begins a character but
does not complete one counts as U+FFFD, and so does a byte that begins none. Encoding writes the
bytes of each character, with U+FFFD for a surrogate without its partner.
-/

namespace CompiledResources.Utf8

/-- A character of which some bytes are still to come. -/
structure Pending where
  /-- Value of the bytes so far. -/
  code : Nat
  /-- Number of bytes to come after the next one. -/
  more : Nat
  /-- Least value of the next byte. -/
  least : UInt8
  /-- Greatest value of the next byte. -/
  greatest : UInt8

/-- The character put in place of bytes that encode none. -/
def replacement : Char := Char.ofNat 0xFFFD

/-- What a byte at the start of a character gives at once, and what it leaves pending. The bounds on
the second byte exclude overlong forms, surrogates and values above U+10FFFF. -/
def start (b : UInt8) : List Char × Option Pending :=
  if b < 0x80 then ([Char.ofNat b.toNat], none)
  else if b < 0xC2 then ([replacement], none)
  else if b < 0xE0 then ([], some ⟨b.toNat - 0xC0, 0, 0x80, 0xBF⟩)
  else if b < 0xF0 then
    let least : UInt8 := if b == 0xE0 then 0xA0 else 0x80
    let greatest : UInt8 := if b == 0xED then 0x9F else 0xBF
    ([], some ⟨b.toNat - 0xE0, 1, least, greatest⟩)
  else if b < 0xF5 then
    let least : UInt8 := if b == 0xF0 then 0x90 else 0x80
    let greatest : UInt8 := if b == 0xF4 then 0x8F else 0xBF
    ([], some ⟨b.toNat - 0xF0, 2, least, greatest⟩)
  else ([replacement], none)

/-- Takes one more byte. -/
def step (state : Option Pending) (b : UInt8) : List Char × Option Pending :=
  match state with
  | none => start b
  | some p =>
    if p.least ≤ b && b ≤ p.greatest then
      let code := p.code * 0x40 + (b.toNat - 0x80)
      match p.more with
      | 0 => ([Char.ofNat code], none)
      | more + 1 => ([], some ⟨code, more, 0x80, 0xBF⟩)
    else
      let (chars, next) := start b
      (replacement :: chars, next)

/-- Decodes the bytes that follow a pending character, if there is one. -/
def decodeFrom : Option Pending → List UInt8 → List Char
  | none, [] => []
  | some _, [] => [replacement]
  | state, b :: rest =>
    let (chars, next) := step state b
    chars ++ decodeFrom next rest

/-- The text that bytes encode. -/
def decode (bytes : List UInt8) : Text :=
  .ofChars (decodeFrom none bytes)

/-- The bytes of a character. -/
def encodeChar (c : Char) : List UInt8 :=
  let code := c.toNat
  let tail (unit : Nat) : UInt8 := UInt8.ofNat (0x80 + code / unit % 0x40)
  if code < 0x80 then [UInt8.ofNat code]
  else if code < 0x800 then [UInt8.ofNat (0xC0 + code / 0x40), tail 1]
  else if code < 0x10000 then [UInt8.ofNat (0xE0 + code / 0x1000), tail 0x40, tail 1]
  else [UInt8.ofNat (0xF0 + code / 0x40000), tail 0x1000, tail 0x40, tail 1]

/-- The bytes of a text. -/
def encode (t : Text) : List UInt8 :=
  (Text.charsOfUnits t.units).flatMap fun c => encodeChar (c.getD replacement)

end CompiledResources.Utf8
