import Correlation.Toml.Quoted
import Correlation.Toml.Scalar
import Correlation.Toml.Table
/-!
# TOML documents

Reading a whole document, in the syntax of TOML 1.1, which takes in that of 1.0: key and value pairs, table
headers, arrays and inline tables. Each reader returns what follows the part that it read.
-/

namespace Correlation

namespace Toml

/-- Arrays and inline tables nest no deeper than this. -/
def nestingLimit : Nat := 80

/-- A path has no more keys than this. -/
def keyLimit : Nat := 80

/-- Repeat a step from a state on until it has a result. Every step of a reader takes something off the text,
so one more round than the document has characters is enough. -/
def loop {σ α : Type} (step : σ → Option (σ ⊕ α)) : Nat → σ → Option α
  | 0, _ => none
  | rounds + 1, s =>
    match step s with
    | none => none
    | some (.inl s) => loop step rounds s
    | some (.inr a) => some a

/-! ## Between the parts -/

def skipBlanks (cs : List Char) : List Char :=
  cs.dropWhile isBlank

/-- Skip blanks, line ends and comments. -/
def skipLines (inComment : Bool) : List Char → Option (List Char)
  | [] => some []
  | '\n' :: rest => skipLines false rest
  | '\r' :: '\n' :: rest => skipLines false rest
  | c :: rest =>
    if inComment then (if isPrintable c then skipLines true rest else none)
    else if isBlank c then skipLines false rest
    else if c = '#' then skipLines true rest
    else some (c :: rest)

/-- The end of a line, at most blanks and a comment before it. -/
def lineEnd (inComment : Bool) : List Char → Option (List Char)
  | [] => some []
  | '\n' :: rest => some rest
  | '\r' :: '\n' :: rest => some rest
  | c :: rest =>
    if inComment then (if isPrintable c then lineEnd true rest else none)
    else if isBlank c then lineEnd false rest
    else if c = '#' then lineEnd true rest
    else none

/-! ## Keys -/

def isBareKey (c : Char) : Bool :=
  c.isAlphanum || c = '_' || c = '-'

def simpleKey : List Char → Option (String × List Char)
  | '"' :: rest => (basic rest).map fun (key, rest) => (String.ofList key, rest)
  | '\'' :: rest => (verbatim rest).map fun (key, rest) => (String.ofList key, rest)
  | cs =>
    let key := cs.takeWhile isBareKey
    if key.isEmpty then none else some (String.ofList key, cs.drop key.length)

/-- One key or several with dots between them, and the blanks after them. -/
def keyPath (cs : List Char) : Option (List String × List Char) :=
  let step : List String × List Char → Option ((List String × List Char) ⊕ (List String × List Char))
    | (path, cs) => do
      let (key, rest) ← simpleKey (skipBlanks cs)
      let path := path ++ [key]
      if path.length > keyLimit then none
      else
        match skipBlanks rest with
        | '.' :: rest => return .inl (path, rest)
        | rest => return .inr (path, rest)
  loop step (keyLimit + 1) ([], cs)

/-! ## Values -/

/-- The characters that end a value without quotes. -/
def delimiters : List Char :=
  ['=', ',', '[', ']', '\x7b', '\x7d', '#', '\r', '\n']

def isQuote (c : Char) : Bool :=
  c = '"' || c = '\''

/-- What stands before a delimiter. A quote behind a blank begins something else. -/
def bareText : List Char → List Char
  | [] => []
  | c :: rest =>
    if delimiters.contains c || (isBlank c && rest.head?.any isQuote) then [] else c :: bareText rest

def trimRight (cs : List Char) : List Char :=
  (cs.reverse.dropWhile isBlank).reverse

/-- A value without quotes or brackets. It may have blanks inside, as a date has before its time. -/
def bareValue (cs : List Char) : Option (Value × List Char) :=
  let text := trimRight (bareText cs)
  (scalar? text).map (·, cs.drop text.length)

def textValue (read : Option (List Char × List Char)) : Option (Value × List Char) :=
  read.map fun (text, rest) => (.text (String.ofList text), rest)

/-- A value that has no parts. -/
def simpleValue : List Char → Option (Value × List Char)
  | '"' :: '"' :: '"' :: rest => textValue (basicLines (skipLineEnd rest))
  | '\'' :: '\'' :: '\'' :: rest => textValue (verbatimLines (skipLineEnd rest))
  | '"' :: rest => textValue (basic rest)
  | '\'' :: rest => textValue (verbatim rest)
  | cs => bareValue cs

/-- A reader of values. -/
abbrev Reader := List Char → Option (Value × List Char)

/-- The items of an array, after its opening bracket. -/
def arrayItems (rounds : Nat) (value : Reader) (cs : List Char) : Option (Value × List Char) :=
  let step : List Value × List Char → Option ((List Value × List Char) ⊕ (Value × List Char))
    | (items, cs) => do
      match ← skipLines false cs with
      | ']' :: rest => return .inr (.array items.reverse, rest)
      | cs =>
        let (item, rest) ← value cs
        match ← skipLines false rest with
        | ',' :: rest => return .inl (item :: items, rest)
        | ']' :: rest => return .inr (.array (item :: items).reverse, rest)
        | _ => none
  loop step rounds ([], cs)

/-- What may be passed over around the equals sign of a pair. -/
abbrev Gap := List Char → Option (List Char)

/-- A statement keeps to its line. -/
def Gap.inLine : Gap :=
  fun cs => some (skipBlanks cs)

def Gap.acrossLines : Gap :=
  skipLines false

/-- A key path, an equals sign and a value. -/
def pair (gap : Gap) (value : Reader) (cs : List Char) : Option (List String × Value × List Char) := do
  let (path, rest) ← keyPath cs
  match ← gap rest with
  | '=' :: rest =>
    let (v, rest) ← value (← gap rest)
    return (path, v, rest)
  | _ => none

/-- The pairs of an inline table, after its opening brace. -/
def inlinePairs (rounds : Nat) (value : Reader) (cs : List Char) : Option (Value × List Char) :=
  let finish (entries : Entries) : Value := .table (Node.entriesToValues entries)
  let step : Entries × List Char → Option ((Entries × List Char) ⊕ (Value × List Char))
    | (entries, cs) => do
      match ← skipLines false cs with
      | '\x7d' :: rest => return .inr (finish entries, rest)
      | cs =>
        let (path, v, rest) ← pair .acrossLines value cs
        let entries ← entries.assign path v
        match ← skipLines false rest with
        | ',' :: rest => return .inl (entries, rest)
        | '\x7d' :: rest => return .inr (finish entries, rest)
        | _ => none
  loop step rounds ([], cs)

/-- A value whose arrays and inline tables nest at most `levels` deep. -/
def value (rounds : Nat) : Nat → Reader
  | 0, cs => simpleValue cs
  | levels + 1, cs =>
    match cs with
    | '[' :: rest => arrayItems rounds (value rounds levels) rest
    | '\x7b' :: rest => inlinePairs rounds (value rounds levels) rest
    | cs => simpleValue cs

/-! ## Statements -/

/-- The table that pairs go into, all tables so far, and the rest of the text. -/
structure Progress where
  current : List String := []
  root : Entries := []
  rest : List Char

/-- Open a table with a header. -/
def openHeader (open? : String → Entries → Option Entries) (path : List String) (p : Progress)
    (rest : List Char) : Option Progress := do
  let root ← Entries.under .implied .header path.dropLast (fun _ => open? (path.getLastD "")) p.root
  return ⟨path, root, ← lineEnd false rest⟩

/-- A header, or a pair for the current table, and the end of its line. -/
def statement (rounds : Nat) (p : Progress) : List Char → Option Progress
  | '[' :: '[' :: rest => do
    let (path, rest) ← keyPath rest
    match rest with
    | ']' :: ']' :: rest => openHeader Entries.openElement path p rest
    | _ => none
  | '[' :: rest => do
    let (path, rest) ← keyPath rest
    match rest with
    | ']' :: rest => openHeader Entries.openTable path p rest
    | _ => none
  | cs => do
    let (path, v, rest) ← pair .inLine (value rounds nestingLimit) cs
    let root ← Entries.under .implied .header p.current (fun _ => Entries.assign path v) p.root
    return ⟨p.current, root, ← lineEnd false rest⟩

/-- The entries of a whole document; a byte order mark may precede it. -/
def parse (text : String) : Option (List (String × Value)) :=
  let cs := match text.toList with
    | '\ufeff' :: rest => rest
    | cs => cs
  let rounds := cs.length + 1
  let step (p : Progress) : Option (Progress ⊕ Entries) := do
    match ← skipLines false p.rest with
    | [] => return .inr p.root
    | cs => return .inl (← statement rounds p cs)
  (loop step rounds ⟨[], [], cs⟩).map Node.entriesToValues

end Toml

end Correlation
