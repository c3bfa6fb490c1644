/-
Quoted texts.

A single-quoted text stands for itself, but for the quote, which is written twice.  A
double-quoted text may hold escapes: a backslash and a letter for one of a few named
characters, or a backslash, a letter and two, four or eight hexadecimal digits for the
character of that number.

`read` takes a quoted text off the front of a text and says what follows it.  `write`
goes the other way, always in double quotes: it escapes the quote, the backslash and the
control characters and leaves every other character as it is.
-/
import YamlDecode.Text.Blank

namespace YamlDecode.Text.Quoted

/-- The reasons why a text cannot be read as a quoted one. -/
inductive Fault where
  /-- The text does not start with a quote. -/
  | missingQuote
  /-- The closing quote is missing. -/
  | unterminated
  /-- A backslash stands before a character that names no escape. -/
  | unknownEscape (c : Char)
  /-- The digits behind an escape letter are too few, are no digits, or number no character. -/
  | invalidEscape (letter : Char) (digits : List Char)
  deriving DecidableEq, Repr

/-! ### Escapes -/

/-- The character that a one-letter escape stands for. -/
def namedEscape : Char → Option Char
  | '0' => some '\x00'
  | 'a' => some '\x07'
  | 'b' => some '\x08'
  | 't' => some '\t'
  | '\t' => some '\t'
  | 'n' => some '\n'
  | 'v' => some '\x0b'
  | 'f' => some '\x0c'
  | 'r' => some '\r'
  | 'e' => some '\x1b'
  | ' ' => some ' '
  | '"' => some '"'
  | '/' => some '/'
  | '\\' => some '\\'
  | 'N' => some '\u0085'
  | '_' => some '\u00a0'
  | 'L' => some '\u2028'
  | 'P' => some '\u2029'
  | _ => none

/-- How many digits follow the letter of a numbered escape. -/
def escapeDigits : Char → Option Nat
  | 'x' => some 2
  | 'u' => some 4
  | 'U' => some 8
  | _ => none

/-- The value of a hexadecimal digit, in either case of the letters. -/
def digitValue (c : Char) : Option Nat :=
  if '0' ≤ c ∧ c ≤ '9' then some (c.toNat - '0'.toNat)
  else if 'a' ≤ c ∧ c ≤ 'f' then some (c.toNat - 'a'.toNat + 10)
  else if 'A' ≤ c ∧ c ≤ 'F' then some (c.toNat - 'A'.toNat + 10)
  else none

/-- The number that a row of hexadecimal digits writes. -/
def hexValue (digits : List Char) : Option Nat :=
  digits.foldl (fun n c => n.bind fun n => (digitValue c).map (16 * n + ·)) (some 0)

/-- The character of a number, if the number has one. -/
def character (n : Nat) : Option Char :=
  if h : n.isValidChar then some (Char.ofNatAux n h) else none

/-- The character that the escape in front of a text stands for, and how many characters
of the text it takes; the backslash has been read already. -/
def escape : List Char → Except Fault (Char × Nat)
  | [] => .error .unterminated
  | c :: cs =>
    match namedEscape c, escapeDigits c with
    | some d, _ => .ok (d, 1)
    | none, none => .error (.unknownEscape c)
    | none, some n =>
      let digits := cs.take n
      let value := if digits.length = n then hexValue digits else none
      match value.bind character with
      | some d => .ok (d, n + 1)
      | none => .error (.invalidEscape c digits)

/-! ### Reading -/

/-- The loop of `read` in double quotes: `skip` characters belong to an escape that has
been read, and `done` is what the text stands for so far, backwards. -/
def readDouble (skip : Nat) (done : List Char) : List Char → Except Fault (List Char × List Char)
  | [] => .error .unterminated
  | c :: cs =>
    match skip with
    | skip + 1 => readDouble skip done cs
    | 0 =>
      if c = '"' then .ok (done.reverse, cs)
      else if c = '\\' then
        match escape cs with
        | .error e => .error e
        | .ok (d, used) => readDouble used (d :: done) cs
      else readDouble 0 (c :: done) cs

/-- The loop of `read` in single quotes. -/
def readSingle (done : List Char) : List Char → Except Fault (List Char × List Char)
  | [] => .error .unterminated
  | '\'' :: '\'' :: cs => readSingle ('\'' :: done) cs
  | c :: cs => if c = '\'' then .ok (done.reverse, cs) else readSingle (c :: done) cs

/-- What the quoted text in front of a text stands for, and what follows it. -/
def read : List Char → Except Fault (List Char × List Char)
  | '"' :: cs => readDouble 0 [] cs
  | '\'' :: cs => readSingle [] cs
  | _ => .error .missingQuote

/-- Does the text start with a quote of either kind? -/
def opens : List Char → Bool
  | c :: _ => c = '"' || c = '\''
  | [] => false

/-! ### Writing -/

/-- The hexadecimal digit of a number below sixteen. -/
def hexDigit (n : Nat) : Char :=
  if n < 10 then Char.ofNat ('0'.toNat + n) else Char.ofNat ('a'.toNat + (n - 10))

/-- A character as it is written between double quotes. -/
def writeChar (c : Char) : List Char :=
  if c = '"' then ['\\', '"']
  else if c = '\\' then ['\\', '\\']
  else if c = '\x07' then ['\\', 'a']
  else if c = '\x08' then ['\\', 'b']
  else if c = '\x0c' then ['\\', 'f']
  else if c = '\n' then ['\\', 'n']
  else if c = '\r' then ['\\', 'r']
  else if c = '\t' then ['\\', 't']
  else if c = '\x0b' then ['\\', 'v']
  else
    let n := c.toNat
    if n < 0x20 || n == 0x7F then ['\\', 'x', hexDigit (n / 16), hexDigit (n % 16)]
    else if isControl c then ['\\', 'u', '0', '0', hexDigit (n / 16), hexDigit (n % 16)]
    else [c]

/-- The text in double quotes. -/
def write (cs : List Char) : List Char := '"' :: (cs.flatMap writeChar ++ ['"'])

end YamlDecode.Text.Quoted
