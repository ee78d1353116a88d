import Bundler.Source.CharClass
import Bundler.Source.Text

/-!
# Escape sequences

Decoding the body of a string or template literal.  A failure is reported as
the byte offset of the backslash it belongs to, or of a line terminator that is
not allowed.  A surrogate without its partner cannot be represented and becomes
the replacement character.
-/

namespace Bundler

namespace Escape

/-- The value of `count` hexadecimal digits, and the text after them. -/
def hexDigits : Nat → Nat → List Char → Option (Nat × List Char)
  | 0, value, text => some (value, text)
  | _ + 1, _, [] => none
  | count + 1, value, c :: cs =>
      match CharClass.digitValue? 16 c with
      | some digit => hexDigits count (16 * value + digit) cs
      | none => none

/-- The value of the digits of a braced escape up to the closing brace.  One
digit is needed, and no value may leave 32 bits on the way. -/
def bracedDigits : Bool → Nat → List Char → Option (Nat × List Char)
  | _, _, [] => none
  | digit, value, c :: cs =>
      if c = '}' then
        if digit && value ≤ 0x10ffff then some (value, cs) else none
      else
        match CharClass.digitValue? 16 c with
        | some d =>
            if 16 * value + d < 0x100000000 then
              bracedDigits true (16 * value + d) cs
            else none
        | none => none

/-- The code unit or point of a Unicode escape, after its letter. -/
def unicode : List Char → Option (Nat × List Char)
  | '{' :: cs => bracedDigits false 0 cs
  | cs => hexDigits 4 0 cs

def replacement : Char := '\ufffd'

def isHighSurrogate (n : Nat) : Bool := 0xd800 ≤ n && n < 0xdc00

def isLowSurrogate (n : Nat) : Bool := 0xdc00 ≤ n && n < 0xe000

/-- The character of a code point; surrogates have none. -/
def scalar (n : Nat) : Char :=
  if n.isValidChar then Char.ofNat n else replacement

/-- The character that a surrogate pair stands for. -/
def ofPair (high low : Nat) : Char :=
  scalar (0x10000 + (high - 0xd800) * 0x400 + (low - 0xdc00))

/-- A low surrogate escaped at the front of a text. -/
def lowSurrogate? : List Char → Option (Nat × List Char)
  | '\\' :: 'u' :: cs => (unicode cs).filter fun found => isLowSurrogate found.1
  | _ => none

/-- Up to `more` further octal digits. -/
def octalDigits : Nat → Nat → List Char → Nat × List Char
  | 0, value, text => (value, text)
  | _ + 1, value, [] => (value, [])
  | more + 1, value, c :: cs =>
      if CharClass.isOctalDigit c then
        octalDigits more (8 * value + (c.toNat - '0'.toNat)) cs
      else (value, c :: cs)

/-- The characters with a single-letter escape. -/
def letter? : Char → Option Char
  | 'b' => some '\x08'
  | 'f' => some '\x0c'
  | 'n' => some '\n'
  | 'r' => some '\r'
  | 't' => some '\t'
  | 'v' => some '\x0b'
  | _ => none

/-- What stands at the front of the body of a literal. -/
inductive Item
  | finished
  /-- A malformed escape, or a line terminator that is not allowed. -/
  | fault
  /-- The characters meant, none for a line continuation, and what follows. -/
  | read (meant : List Char) (rest : List Char)

/-- The item that a backslash opens, given the text after it. -/
def escaped : List Char → Item
  | [] => .fault
  | '\r' :: '\n' :: cs => .read [] cs
  | c :: cs =>
      if CharClass.isLineTerminator c then .read [] cs
      else if let some meant := letter? c then .read [meant] cs
      else if CharClass.isOctalDigit c then
        let more := if c ≤ '3' then 2 else 1
        let (value, rest) := octalDigits more (c.toNat - '0'.toNat) cs
        .read [scalar value] rest
      else if c = 'x' then
        match hexDigits 2 0 cs with
        | some (value, rest) => .read [scalar value] rest
        | none => .fault
      else if c = 'u' then
        match unicode cs with
        | none => .fault
        | some (value, rest) =>
            if isHighSurrogate value then
              match lowSurrogate? rest with
              | some (low, rest) => .read [ofPair value low] rest
              | none => .read [replacement] rest
            else .read [scalar value] rest
      else .read [c] cs

/-- The item at the front of a text. -/
def item (lineTerminators : Bool) : List Char → Item
  | [] => .finished
  | c :: cs =>
      if c = '\\' then escaped cs
      else if !lineTerminators && (c = '\n' || c = '\r') then .fault
      else .read [c] cs

theorem length_hexDigits {count value : Nat} {text : List Char}
    {found : Nat × List Char} (h : hexDigits count value text = some found) :
    found.2.length ≤ text.length := by
  fun_induction hexDigits count value text with
  | case1 => cases h; simp
  | case2 => cases h
  | case3 _ _ c cs _ _ ih => exact Nat.le_succ_of_le (ih h)
  | case4 => cases h

theorem length_bracedDigits {digit : Bool} {value : Nat} {text : List Char}
    {found : Nat × List Char} (h : bracedDigits digit value text = some found) :
    found.2.length ≤ text.length := by
  fun_induction bracedDigits digit value text with
  | case2 => cases h; simp
  | case4 _ _ c cs _ _ _ _ ih => exact Nat.le_succ_of_le (ih h)
  | _ => cases h

theorem length_unicode {text : List Char} {found : Nat × List Char}
    (h : unicode text = some found) : found.2.length ≤ text.length := by
  unfold unicode at h
  split at h
  · exact Nat.le_succ_of_le (length_bracedDigits h)
  · exact length_hexDigits h

theorem length_lowSurrogate? {text : List Char} {found : Nat × List Char}
    (h : lowSurrogate? text = some found) : found.2.length ≤ text.length := by
  unfold lowSurrogate? at h
  split at h
  · simp only [Option.filter_eq_some_iff] at h
    have := length_unicode h.1
    simp only [List.length_cons]
    omega
  · cases h

theorem length_octalDigits (more value : Nat) (text : List Char) :
    (octalDigits more value text).2.length ≤ text.length := by
  fun_induction octalDigits more value text with
  | case3 _ _ c cs _ ih => exact Nat.le_succ_of_le ih
  | _ => simp

theorem length_escaped {text meant rest : List Char}
    (h : escaped text = .read meant rest) : rest.length < text.length := by
  unfold escaped at h
  split at h
  · cases h
  · cases h; simp only [List.length_cons]; omega
  · rename_i c cs _
    simp only [List.length_cons]
    split at h
    · cases h; omega
    · split at h
      · cases h; omega
      · split at h
        · cases h
          exact Nat.lt_succ_of_le (length_octalDigits _ _ _)
        · split at h
          · split at h
            · rename_i hx; cases h
              exact Nat.lt_succ_of_le (length_hexDigits hx)
            · cases h
          · split at h
            · split at h
              · cases h
              · rename_i value after hu
                have hle := length_unicode hu
                split at h
                · split at h
                  · rename_i hl
                    have := length_lowSurrogate? hl
                    cases h
                    simp only at hle this
                    omega
                  · cases h; exact Nat.lt_succ_of_le hle
                · cases h; exact Nat.lt_succ_of_le hle
            · cases h; omega

/-- Every item takes something. -/
theorem length_item {lineTerminators : Bool} {text meant rest : List Char}
    (h : item lineTerminators text = .read meant rest) :
    rest.length < text.length := by
  unfold item at h
  split at h
  · cases h
  · simp only [List.length_cons]
    split at h
    · have := length_escaped h; omega
    · split at h
      · cases h
      · cases h; omega

/-- Decodes item by item.  A failure carries the text that could not be read. -/
def decodeAll (lineTerminators : Bool) (text : List Char) :
    Except (List Char) (List Char) :=
  match _h : item lineTerminators text with
  | .finished => .ok []
  | .fault => .error text
  | .read meant rest =>
      match decodeAll lineTerminators rest with
      | .ok others => .ok (meant ++ others)
      | .error rest => .error rest
termination_by text.length
decreasing_by exact length_item (by assumption)

/-- Decodes the body of a literal, or says at which byte it is malformed. -/
def decode (lineTerminators : Bool) (text : List Char) :
    Except Nat (List Char) :=
  match decodeAll lineTerminators text with
  | .ok decoded => .ok decoded
  | .error rest => .error (Text.byteLength text - Text.byteLength rest)

end Escape

end Bundler
