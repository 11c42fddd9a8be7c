import CarolinaDB.Bytes
import CarolinaDB.CoreError

/-!
# Restricted canonical JSON

Values, their one encoding, and the strict decoder. The decoder refuses input
beyond its limits and re-encodes what it read before accepting it.
-/
namespace CarolinaDB

/-- The UTF-8 bytes of a string. -/
def utf8 (s : String) : Bytes := s.toByteArray.data.toList

def fromUtf8 (b : Bytes) : Option String := String.fromUTF8? ⟨b.toArray⟩

def isAscii (s : String) : Bool := (utf8 s).all (· < 0x80)

def hexDigit (n : UInt8) : UInt8 := if n < 10 then 0x30 + n else 0x57 + n

/-- The value of a lowercase hexadecimal digit. -/
def nibble (c : UInt8) : Option UInt8 :=
  if 0x30 ≤ c ∧ c ≤ 0x39 then some (c - 0x30)
  else if 0x61 ≤ c ∧ c ≤ 0x66 then some (c - 0x61 + 10)
  else none

inductive CanonValue
  | null
  | bool (b : Bool)
  | str (s : String)
  | array (items : List CanonValue)
  | object (fields : List (String × CanonValue))
  deriving Repr

/-- The limits a decoder works under. -/
structure Limits where
  maxPayloadBytes : ℕ
  maxDepth : ℕ
  maxCollectionLen : ℕ
  maxScalarBytes : ℕ
  deriving DecidableEq, Repr

def Limits.v1 : Limits where
  maxPayloadBytes := 16 * 1024 * 1024
  maxDepth := 64
  maxCollectionLen := 65536
  maxScalarBytes := 1024 * 1024

section Encoding

/-- Quotes, backslashes and control characters are escaped, everything else is written as it is. -/
def escapeChar (c : Char) : Bytes :=
  if c.val = 0x22 then [0x5c, 0x22]
  else if c.val = 0x5c then [0x5c, 0x5c]
  else if c.val < 0x20 then
    [0x5c, 0x75, 0x30, 0x30, hexDigit (c.val / 16).toUInt8, hexDigit (c.val % 16).toUInt8]
  else String.utf8EncodeChar c

def escape (s : String) : Bytes := s.toList.flatMap escapeChar

def writeString (s : String) : Bytes := 0x22 :: (escape s ++ [0x22])

mutual

def CanonValue.encode : CanonValue → Bytes
  | .null => utf8 "null"
  | .bool true => utf8 "true"
  | .bool false => utf8 "false"
  | .str s => writeString s
  | .array items => 0x5b :: (encodeItems true items ++ [0x5d])
  | .object fields => 0x7b :: (encodeFields true fields ++ [0x7d])

/-- Every item but the first one is preceded by a comma. -/
def encodeItems (first : Bool) : List CanonValue → Bytes
  | [] => []
  | v :: vs => (if first then [] else [0x2c]) ++ (v.encode ++ encodeItems false vs)

def encodeFields (first : Bool) : List (String × CanonValue) → Bytes
  | [] => []
  | (k, v) :: fs =>
    (if first then [] else [0x2c]) ++ (writeString k ++ 0x3a :: (v.encode ++ encodeFields false fs))

end

end Encoding

structure Parser where
  limits : Limits
  /-- Length of the whole input, to report positions. -/
  total : ℕ

namespace Parser

def fail {α : Type} (p : Parser) (message : String) (src : Bytes) : CoreResult α :=
  .error (.new .nonCanonicalEncoding (message ++ " at byte " ++ toString (p.total - src.length)))

def expectLit (p : Parser) (lit src : Bytes) : CoreResult Bytes :=
  if lit.isPrefixOf src then .ok (src.drop lit.length) else p.fail "invalid literal" src

/-- The contents of a string up to its closing quote, with escapes undone. -/
def parseChars (p : Parser) (used : ℕ) : Bytes → CoreResult (Bytes × Bytes)
  | [] => p.fail "unterminated string" []
  | c :: src =>
    let push (out : UInt8) (r : CoreResult (Bytes × Bytes)) := r.map fun (cs, rest) => (out :: cs, rest)
    if p.limits.maxScalarBytes + 8 < used then
      .error (.new .resourceLimit "string exceeds scalar limit")
    else if c = 0x22 then .ok ([], src)
    else if c = 0x5c then
      match src with
      | [] => p.fail "invalid escape (only \\\" \\\\ and \\u00xx allowed)" []
      | e :: src' =>
        if e = 0x22 then push 0x22 (p.parseChars (used + 2) src')
        else if e = 0x5c then push 0x5c (p.parseChars (used + 2) src')
        else if e = 0x75 then
          match src' with
          | h₃ :: h₂ :: h₁ :: h₀ :: rest =>
            if (fromUtf8 [h₃, h₂, h₁, h₀]).isNone then
              .error (.new .nonCanonicalEncoding "invalid \\u escape")
            else
              match nibble h₃, nibble h₂, nibble h₁, nibble h₀ with
              | some d₃, some d₂, some d₁, some d₀ =>
                if d₃ = 0 ∧ d₂ = 0 ∧ d₁ < 2 then push (d₁ * 16 + d₀) (p.parseChars (used + 6) rest)
                else p.fail "only control characters may use \\u escapes" src'
              | _, _, _, _ => p.fail "\\u escape must be lowercase hex" src'
          | _ => .error (.new .nonCanonicalEncoding "truncated \\u escape")
        else p.fail "invalid escape (only \\\" \\\\ and \\u00xx allowed)" src
    else if c < 0x20 then p.fail "raw control character in string" (c :: src)
    else push c (p.parseChars (used + 1) src)

/-- A string whose opening quote has been read. -/
def parseString (p : Parser) (src : Bytes) : CoreResult (String × Bytes) := do
  let (out, rest) ← p.parseChars 0 src
  match fromUtf8 out with
  | some s => .ok (s, rest)
  | none => .error (.new .nonCanonicalEncoding "invalid UTF-8 in string")

def isAsciiDigit (c : UInt8) : Bool := 0x30 ≤ c ∧ c ≤ 0x39

def isAsciiWhitespace (c : UInt8) : Bool := c = 0x20 ∨ c = 0x09 ∨ c = 0x0a ∨ c = 0x0c ∨ c = 0x0d

-- Every call reads at least one byte, so the length of the input is fuel enough.
mutual

def parseValue (p : Parser) : ℕ → ℕ → Bytes → CoreResult (CanonValue × Bytes)
  | 0, _, src => p.fail "unexpected end" src
  | _+1, _, [] => p.fail "unexpected end" []
  | fuel+1, depth, c :: src =>
    if c = 0x6e then (p.expectLit (utf8 "null") (c :: src)).map fun rest => (.null, rest)
    else if c = 0x74 then (p.expectLit (utf8 "true") (c :: src)).map fun rest => (.bool true, rest)
    else if c = 0x66 then (p.expectLit (utf8 "false") (c :: src)).map fun rest => (.bool false, rest)
    else if c = 0x22 then (p.parseString src).map fun (s, rest) => (.str s, rest)
    else if c = 0x5b then
      if p.limits.maxDepth < depth + 1 then
        .error (.new .resourceLimit "nesting depth exceeds limit")
      else if src.head? = some 0x5d then .ok (.array [], src.tail)
      else (p.parseItems fuel (depth + 1) 0 src).map fun (items, rest) => (.array items, rest)
    else if c = 0x7b then
      if p.limits.maxDepth < depth + 1 then
        .error (.new .resourceLimit "nesting depth exceeds limit")
      else if src.head? = some 0x7d then .ok (.object [], src.tail)
      else (p.parseFields fuel (depth + 1) 0 none src).map fun (fields, rest) => (.object fields, rest)
    else if c = 0x2d ∨ isAsciiDigit c then
      p.fail "JSON numbers are forbidden; use canonical strings" (c :: src)
    else if isAsciiWhitespace c then p.fail "insignificant whitespace is forbidden" (c :: src)
    else p.fail "unexpected byte" (c :: src)

/-- The items of an array from the next one on; `n` have been read. -/
def parseItems (p : Parser) : ℕ → ℕ → ℕ → Bytes → CoreResult (List CanonValue × Bytes)
  | 0, _, _, src => p.fail "unexpected end" src
  | fuel+1, depth, n, src => do
    let (v, rest) ← p.parseValue fuel depth src
    if p.limits.maxCollectionLen < n + 1 then
      .error (.new .resourceLimit "collection length exceeds limit")
    else if rest.head? = some 0x2c then
      (p.parseItems fuel depth (n + 1) rest.tail).map fun (vs, rest) => (v :: vs, rest)
    else if rest.head? = some 0x5d then .ok ([v], rest.tail)
    else p.fail "expected , or ]" rest

/-- The fields of an object from the next one on. Keys are ASCII and strictly increase. -/
def parseFields (p : Parser) :
    ℕ → ℕ → ℕ → Option String → Bytes → CoreResult (List (String × CanonValue) × Bytes)
  | 0, _, _, _, src => p.fail "unexpected end" src
  | fuel+1, depth, n, last, src =>
    if src.head? ≠ some 0x22 then p.fail "expected object key" src
    else do
      let (key, rest) ← p.parseString src.tail
      if ¬ isAscii key then p.fail "object keys must be ASCII" rest
      else if last.any (fun prev => ¬ utf8 prev < utf8 key) then
        p.fail "object keys must be strictly sorted (duplicate or unsorted key)" rest
      else if rest.head? ≠ some 0x3a then p.fail "expected :" rest
      else do
        let (v, rest) ← p.parseValue fuel depth rest.tail
        if p.limits.maxCollectionLen < n + 1 then
          .error (.new .resourceLimit "object size exceeds limit")
        else if rest.head? = some 0x2c then
          (p.parseFields fuel depth (n + 1) (some key) rest.tail).map
            fun (fs, rest) => ((key, v) :: fs, rest)
        else if rest.head? = some 0x7d then .ok ([(key, v)], rest.tail)
        else p.fail "expected , or \x7d" rest

end

end Parser

/-- Strict decoder. It re-encodes the value and compares the bytes. -/
def CanonValue.decode (bytes : Bytes) (limits : Limits) : CoreResult CanonValue :=
  if limits.maxPayloadBytes < bytes.length then
    .error (.new .resourceLimit "payload exceeds max_payload_bytes")
  else do
    let p : Parser := ⟨limits, bytes.length⟩
    let (v, rest) ← p.parseValue (bytes.length + 1) 0 bytes
    if rest ≠ [] then .error (.new .nonCanonicalEncoding "trailing bytes after canonical value")
    else if v.encode ≠ bytes then
      .error (.new .nonCanonicalEncoding "input is not in canonical form")
    else .ok v

end CarolinaDB
