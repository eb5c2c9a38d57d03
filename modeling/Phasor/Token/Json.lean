import Phasor.Token

namespace Phasor.Json

def hexDigit (n : Nat) : Char := Nat.digitChar n

def escapedChar (c : Char) : List Char :=
  match c with
  | '"' => ['\\', '"']
  | '\\' => ['\\', '\\']
  | '\x08' => ['\\', 'b']
  | '\x0c' => ['\\', 'f']
  | '\n' => ['\\', 'n']
  | '\r' => ['\\', 'r']
  | '\t' => ['\\', 't']
  | c =>
    if c.toNat < 0x20 then
      ['\\', 'u', '0', '0', hexDigit (c.toNat / 16), hexDigit (c.toNat % 16)]
    else [c]

def writeString (s : String) : List Char :=
  '"' :: s.toList.flatMap escapedChar ++ ['"']

def writeToken (t : Token) : String :=
  String.ofList ("\x7b\"kind\":".toList ++ writeString t.kind.name
    ++ ",\"value\":".toList ++ writeString t.value ++ ['\x7d'])

/-- A piece of a string: a character, or a 16-bit code given in hexadecimal, which may be half of a
pair. -/
inductive Piece where
  | char (c : Char)
  | code (n : Nat)

def hexValue? (c : Char) : Option Nat :=
  if '0' ≤ c ∧ c ≤ '9' then some (c.toNat - 48)
  else if 'a' ≤ c ∧ c ≤ 'f' then some (c.toNat - 87)
  else if 'A' ≤ c ∧ c ≤ 'F' then some (c.toNat - 55)
  else none

def code? (a b c d : Char) : Option Nat := do
  return (((← hexValue? a) * 16 + (← hexValue? b)) * 16 + (← hexValue? c)) * 16 + (← hexValue? d)

def unescape? : Char → Option Char
  | '"' => some '"'
  | '\\' => some '\\'
  | '/' => some '/'
  | 'b' => some '\x08'
  | 'f' => some '\x0c'
  | 'n' => some '\n'
  | 'r' => some '\r'
  | 't' => some '\t'
  | _ => none

def pieces : List Char → Option (List Piece × List Char)
  | '"' :: rest => some ([], rest)
  | '\\' :: 'u' :: a :: b :: c :: d :: rest => do
    let n ← code? a b c d
    let (ps, rest) ← pieces rest
    return (.code n :: ps, rest)
  | '\\' :: e :: rest => do
    let c ← unescape? e
    let (ps, rest) ← pieces rest
    return (.char c :: ps, rest)
  | c :: rest =>
    if c.toNat < 0x20 ∨ c = '\\' then none
    else do
      let (ps, rest) ← pieces rest
      return (.char c :: ps, rest)
  | [] => none

def joined : List Piece → Option (List Char)
  | [] => some []
  | .char c :: ps => (joined ps).map (c :: ·)
  | .code hi :: .code lo :: ps =>
    if 0xd800 ≤ hi ∧ hi < 0xdc00 then
      if 0xdc00 ≤ lo ∧ lo < 0xe000 then
        (joined ps).map (.ofNat (0x10000 + (hi - 0xd800) * 0x400 + (lo - 0xdc00)) :: ·)
      else none
    else if 0xdc00 ≤ hi ∧ hi < 0xe000 then none
    else (joined (.code lo :: ps)).map (.ofNat hi :: ·)
  | .code n :: ps =>
    if 0xd800 ≤ n ∧ n < 0xe000 then none else (joined ps).map (.ofNat n :: ·)

def stringBody (cs : List Char) : Option (String × List Char) := do
  let (ps, rest) ← pieces cs
  return (.ofList (← joined ps), rest)

def isSpace (c : Char) : Bool :=
  c == ' ' || c == '\t' || c == '\r' || c == '\n'

def skipSpace (cs : List Char) : List Char :=
  cs.dropWhile isSpace

def expect (c : Char) (cs : List Char) : Option (List Char) :=
  match skipSpace cs with
  | d :: rest => if d = c then some rest else none
  | [] => none

def skipWord (word cs : List Char) : Option (List Char) :=
  if word.isPrefixOf cs then some (cs.drop word.length) else none

def skipDigits : List Char → Option (List Char)
  | c :: rest => if c.isDigit then some (rest.dropWhile Char.isDigit) else none
  | [] => none

def skipSign : List Char → List Char
  | '-' :: rest => rest
  | '+' :: rest => rest
  | cs => cs

def skipInteger : List Char → Option (List Char)
  | '-' :: '0' :: rest => some rest
  | '0' :: rest => some rest
  | '-' :: rest => skipDigits rest
  | cs => skipDigits cs

def skipFraction : List Char → Option (List Char)
  | '.' :: rest => skipDigits rest
  | cs => some cs

def skipExponent : List Char → Option (List Char)
  | 'e' :: rest => skipDigits (skipSign rest)
  | 'E' :: rest => skipDigits (skipSign rest)
  | cs => some cs

def skipNumber (cs : List Char) : Option (List Char) := do
  skipExponent (← skipFraction (← skipInteger cs))

def skipScalar (cs : List Char) : Option (List Char) :=
  match cs with
  | 't' :: _ => skipWord "true".toList cs
  | 'f' :: _ => skipWord "false".toList cs
  | 'n' :: _ => skipWord "null".toList cs
  | '"' :: rest => (pieces rest).map Prod.snd
  | _ => skipNumber cs

def skipKey (cs : List Char) : Option (List Char) := do
  let (_, rest) ← pieces (← expect '"' cs)
  expect ':' rest

inductive Bracket where
  | array
  | object

/-- With `before` a value comes next inside `brackets`, otherwise one has just ended. Each step
takes a character at least, so the length of the text bounds their number. -/
def skipFrom : (fuel : Nat) → (before : Bool) → (brackets : List Bracket) → List Char → Option (List Char)
  | 0, _, _, _ => none
  | fuel + 1, true, brackets, cs =>
    match skipSpace cs with
    | '[' :: rest =>
      match expect ']' rest with
      | some rest => skipFrom fuel false brackets rest
      | none => skipFrom fuel true (.array :: brackets) rest
    | '\x7b' :: rest =>
      match expect '\x7d' rest with
      | some rest => skipFrom fuel false brackets rest
      | none => (skipKey rest).bind (skipFrom fuel true (.object :: brackets))
    | cs => (skipScalar cs).bind (skipFrom fuel false brackets)
  | _ + 1, false, [], cs => some cs
  | fuel + 1, false, .array :: brackets, cs =>
    match skipSpace cs with
    | ',' :: rest => skipFrom fuel true (.array :: brackets) rest
    | ']' :: rest => skipFrom fuel false brackets rest
    | _ => none
  | fuel + 1, false, .object :: brackets, cs =>
    match skipSpace cs with
    | ',' :: rest => (skipKey rest).bind (skipFrom fuel true (.object :: brackets))
    | '\x7d' :: rest => skipFrom fuel false brackets rest
    | _ => none

def skipValue (cs : List Char) : Option (List Char) :=
  skipFrom (cs.length + 2) true [] cs

def readString (cs : List Char) : Option (String × List Char) := do
  stringBody (← expect '"' cs)

def readKindName (cs : List Char) : Option (Token.Kind × List Char) := do
  let (name, rest) ← readString cs
  return (← Token.Kind.ofName? name, rest)

def readKind (cs : List Char) : Option (Token.Kind × List Char) :=
  match expect '\x7b' cs with
  | none => readKindName cs
  | some rest => do
    let (kind, rest) ← readKindName rest
    let rest ← skipWord "null".toList (skipSpace (← expect ':' rest))
    return (kind, ← expect '\x7d' rest)

def readMembers : (fuel : Nat) → Option Token.Kind → Option String → List Char →
    Option (Token × List Char)
  | 0, _, _, _ => none
  | fuel + 1, kind, value, cs => do
    let (key, rest) ← readString cs
    let rest ← expect ':' rest
    let (kind, value, rest) ←
      if key = "kind" then
        if kind.isSome then none else (readKind rest).map (fun (k, rest) => (some k, value, rest))
      else if key = "value" then
        if value.isSome then none else (readString rest).map (fun (v, rest) => (kind, some v, rest))
      else (skipValue rest).map (fun rest => (kind, value, rest))
    match skipSpace rest with
    | ',' :: rest => readMembers fuel kind value rest
    | '\x7d' :: rest => return (.ofKind (← kind) (← value), rest)
    | _ => none

def readToken (cs : List Char) : Option (Token × List Char) :=
  match skipSpace cs with
  | '\x7b' :: rest => readMembers (rest.length + 1) none none rest
  | '[' :: rest => do
    let (kind, rest) ← readKindName rest
    let (value, rest) ← readString (← expect ',' rest)
    return (.ofKind kind value, ← expect ']' rest)
  | _ => none

def readElements : (fuel : Nat) → List Char → Option (List Token × List Char)
  | 0, _ => none
  | fuel + 1, cs => do
    let (t, rest) ← readToken cs
    match skipSpace rest with
    | ',' :: rest =>
      let (ts, rest) ← readElements fuel rest
      return (t :: ts, rest)
    | ']' :: rest => return ([t], rest)
    | _ => none

def readTokens (text : String) : Option (List Token) := do
  let cs ← expect '[' text.toList
  let (ts, rest) ←
    match expect ']' cs with
    | some rest => some ([], rest)
    | none => readElements (cs.length + 1) cs
  if (skipSpace rest).isEmpty then some ts else none

end Phasor.Json
