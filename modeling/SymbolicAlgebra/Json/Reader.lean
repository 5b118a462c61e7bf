import SymbolicAlgebra.Fault
import SymbolicAlgebra.Json.Fault

/-!
# Json/Reader — raw shapes from JSON text

Texts become names, numbers without fraction and exponent integers, all other numbers doubles.  The
words `NaN`, `Infinity` and `-Infinity` are numbers too.  Of members of an object with one name, the
last gives the value and the first the place.
-/

namespace SymbolicAlgebra.Json

/-- Fails in front of what is left. -/
def fail {α : Type} (cause : Cause) (rest : List Char) : Except Fault α :=
  .error ⟨cause, rest.length⟩

/-- Drops white space. -/
def skipSpace (s : List Char) : List Char :=
  s.dropWhile fun c => c == ' ' || c == '\t' || c == '\n' || c == '\r'

/-! ## Texts -/

def hexDigit? (c : Char) : Option Nat :=
  if '0' ≤ c ∧ c ≤ '9' then some (c.toNat - '0'.toNat)
  else if 'a' ≤ c ∧ c ≤ 'f' then some (c.toNat - 'a'.toNat + 10)
  else if 'A' ≤ c ∧ c ≤ 'F' then some (c.toNat - 'A'.toNat + 10)
  else none

/-- The number that hexadecimal digits write. -/
def hexValue? (digits : List Char) : Option Nat :=
  digits.foldlM (fun n c => (hexDigit? c).map (16 * n + ·)) 0

/-- The character that a letter behind a backslash stands for. -/
def escaped? : Char → Option Char
  | '"' => some '"'
  | '\\' => some '\\'
  | '/' => some '/'
  | 'b' => some '\x08'
  | 'f' => some '\x0c'
  | 'n' => some '\n'
  | 'r' => some '\r'
  | 't' => some '\t'
  | _ => none

/-- The character of a code unit; the replacement character for half of a pair. -/
def unitChar (n : Nat) : Char := if 0xD800 ≤ n ∧ n < 0xE000 then '\uFFFD' else Char.ofNat n

/-- The character of two code units that form a pair. -/
def pairChar? (high low : Nat) : Option Char :=
  if 0xD800 ≤ high ∧ high < 0xDC00 ∧ 0xDC00 ≤ low ∧ low < 0xE000 then
    some (Char.ofNat (0x10000 + (high - 0xD800) * 0x400 + (low - 0xDC00)))
  else none

/-- The second half of a pair, written behind the first one; a `u` that no number follows is a
fault. -/
def secondUnit? (high : Nat) : List Char → Except Fault (Option Nat)
  | '\\' :: 'u' :: a :: b :: c :: d :: e :: rest =>
      if 0xD800 ≤ high ∧ high < 0xDC00 then
        match hexValue? [a, b, c, d] with
        | some n => .ok (some n)
        | none => fail .badUnicodeEscape ('u' :: a :: b :: c :: d :: e :: rest)
      else .ok none
  | _ => .ok none

/-- Reads a text behind its opening quote.  `seen` holds what was read, last character first, and
`start` is what is left at the opening quote. -/
def readText (start : Nat) (seen : List Char) : List Char → Except Fault (String × List Char)
  | [] => .error ⟨.unterminated, start⟩
  | '"' :: rest => .ok (String.ofList seen.reverse, rest)
  | '\\' :: 'u' :: a :: b :: c :: d :: e :: rest =>
      let here := 'u' :: a :: b :: c :: d :: e :: rest
      match hexValue? [a, b, c, d] with
      | none => fail .badUnicodeEscape here
      | some n =>
          match secondUnit? n (e :: rest) with
          | .error f => .error f
          | .ok second =>
              match second.bind (pairChar? n) with
              | some x => readText start (x :: seen) (rest.drop 5)
              | none => readText start (unitChar n :: seen) (e :: rest)
  | '\\' :: 'u' :: rest => fail .badUnicodeEscape ('u' :: rest)
  | ['\\'] => .error ⟨.unterminated, start⟩
  | '\\' :: c :: rest =>
      match escaped? c with
      | some x => readText start (x :: seen) rest
      | none => fail .badEscape ('\\' :: c :: rest)
  | c :: rest =>
      if c.toNat < 0x20 then fail .controlCharacter (c :: rest)
      else readText start (c :: seen) rest
termination_by s => s.length
decreasing_by all_goals simp +arith

/-! ## Numbers -/

def takeDigits (s : List Char) : List Char × List Char := s.span fun c => '0' ≤ c && c ≤ '9'

/-- The digits of a whole number: a zero, or digits that start with none. -/
def takeWhole : List Char → Option (List Char × List Char)
  | '0' :: rest => some (['0'], rest)
  | s =>
      match takeDigits s with
      | ([], _) => none
      | found => some found

/-- A point and the digits behind it, if there are any. -/
def takeFraction : List Char → List Char × List Char
  | '.' :: rest =>
      match takeDigits rest with
      | ([], _) => ([], '.' :: rest)
      | (digits, rest) => ('.' :: digits, rest)
  | s => ([], s)

/-- The mark of an exponent, its sign and its digits, if there are any. -/
def takeExponent (s : List Char) : List Char × List Char :=
  match s with
  | c :: rest =>
      if c == 'e' || c == 'E' then
        let (sign, rest') :=
          match rest with
          | '+' :: rest => (['+'], rest)
          | '-' :: rest => (['-'], rest)
          | rest => ([], rest)
        match takeDigits rest' with
        | ([], _) => ([], s)
        | (digits, rest) => (c :: sign ++ digits, rest)
      else ([], s)
  | [] => ([], [])

/-- Reads a number. -/
def readNumber (s : List Char) : Except Fault (Raw × List Char) :=
  let (sign, unsigned) :=
    match s with
    | '-' :: rest => (['-'], rest)
    | s => ([], s)
  match takeWhole unsigned with
  | none => fail .noValue s
  | some (whole, rest) =>
      let (fraction, rest) := takeFraction rest
      let (exponent, rest) := takeExponent rest
      let text := String.ofList (sign ++ whole ++ fraction ++ exponent)
      if fraction.isEmpty && exponent.isEmpty then
        .ok (.int ((Text.readInt? text).getD 0), rest)
      else .ok (.double ((Double.ofText? text).getD Double.notANumber), rest)

/-! ## Values -/

/-- The words that stand for values. -/
def words : List (String × Raw) :=
  [("null", .null), ("true", .bool true), ("false", .bool false),
    ("NaN", .double Double.notANumber), ("Infinity", .double Double.infinity),
    ("-Infinity", .double (Double.signedInfinity true))]

/-- A word that stands for a value, and what follows it. -/
def takeWord? (s : List Char) : Option (Raw × List Char) :=
  (words.find? fun (w, _) => w.toList.isPrefixOf s).map fun (w, r) => (r, s.drop w.length)

/-- Sets a member; a name that is there keeps its place. -/
def setMember (members : List (String × Raw)) (name : String) (value : Raw) :
    List (String × Raw) :=
  if members.any (·.1 == name) then
    members.map fun (n, v) => if n == name then (n, value) else (n, v)
  else members ++ [(name, value)]

mutual

/-- Reads a value. -/
def readValue : (fuel : Nat) → List Char → Except Fault (Raw × List Char)
  | 0, s => fail .noValue s
  | _ + 1, [] => fail .noValue []
  | _ + 1, '"' :: rest => do
      let (text, rest) ← readText (rest.length + 1) [] rest
      return (.name text, rest)
  | fuel + 1, '[' :: rest =>
      match skipSpace rest with
      | ']' :: rest => .ok (.list [], rest)
      | rest => readItems fuel [] rest
  | fuel + 1, '\x7b' :: rest =>
      match skipSpace rest with
      | '\x7d' :: rest => .ok (.map [] [], rest)
      | rest => readMembers fuel [] rest
  | _ + 1, s =>
      match takeWord? s with
      | some found => .ok found
      | none => readNumber s

/-- Reads the items of an array up to its end; `items` holds those before, last one first. -/
def readItems : (fuel : Nat) → (items : List Raw) → List Char → Except Fault (Raw × List Char)
  | 0, _, s => fail .noValue s
  | fuel + 1, items, s => do
      let (item, rest) ← readValue fuel s
      match skipSpace rest with
      | ']' :: rest => return (.list (item :: items).reverse, rest)
      | ',' :: rest => readItems fuel (item :: items) (skipSpace rest)
      | rest => fail .noComma rest

/-- Reads the members of an object up to its end. -/
def readMembers :
    (fuel : Nat) → (members : List (String × Raw)) → List Char → Except Fault (Raw × List Char)
  | 0, _, s => fail .noName s
  | fuel + 1, members, '"' :: rest => do
      let (name, rest) ← readText (rest.length + 1) [] rest
      match skipSpace rest with
      | ':' :: rest =>
          let (value, rest) ← readValue fuel (skipSpace rest)
          let members := setMember members name value
          match skipSpace rest with
          | '\x7d' :: rest => return (.map (members.map (·.1)) (members.map (·.2)), rest)
          | ',' :: rest => readMembers fuel members (skipSpace rest)
          | rest => fail .noComma rest
      | rest => fail .noColon rest
  | _ + 1, _, s => fail .noName s

end

/-- Reads a whole text as one value. -/
def read (s : List Char) : Except Fault Raw := do
  if s.head? == some '\uFEFF' then fail .byteOrderMark s
  else
    let (value, rest) ← readValue (2 * s.length + 2) (skipSpace s)
    match skipSpace rest with
    | [] => return value
    | rest => fail .extraData rest

/-- Reads a whole text as one value. -/
def parse (s : String) : Except SymbolicAlgebra.Fault Raw :=
  match read s.toList with
  | .ok r => .ok r
  | .error f => .error (.malformedJson (f.message s.toList))

end SymbolicAlgebra.Json
