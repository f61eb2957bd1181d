import BondingCurve.Toml.Value

/-!
# TOML documents

A document is a list of statements: headers, headers of arrays of tables, and pairs of a key and
a value. `Building.apply` runs them one after the other. A table that a header has opened cannot be
opened again, a dotted key can only extend tables that dotted keys have made, and no key is given
twice.
-/

namespace BondingCurve
namespace Toml

open Toml.Parser

/-! ## Tables -/

mutual

inductive Node where
  | value (v : Value)
  | table (t : Table)
  /-- An array of tables, the last one first. -/
  | tables (items : List Table)

/-- A table and how it came about: by a header, on the way to another table, or by a dotted
key. -/
inductive Table where
  | mk (implicit dotted : Bool) (entries : List (String × Node))

end

namespace Table

def empty : Table := .mk false false []

def isImplicit : Table → Bool
  | .mk implicit _ _ => implicit

def isDotted : Table → Bool
  | .mk _ dotted _ => dotted

def entries : Table → List (String × Node)
  | .mk _ _ entries => entries

def find? (t : Table) (key : String) : Option Node := t.entries.lookup key

def erase (t : Table) (key : String) : Table :=
  .mk t.isImplicit t.isDotted (t.entries.filter fun e => e.1 ≠ key)

def insert (t : Table) (key : String) (n : Node) : Table :=
  .mk t.isImplicit t.isDotted ((key, n) :: (t.erase key).entries)

/-- The same entries in a table that a header has opened. -/
def opened (t : Table) : Table := .mk false false t.entries

/-- Apply `f` to the table at the end of `path`. Tables that are missing on the way are made,
the last table of an array stands for the array. -/
def update (dotted : Bool) (f : Table → Option Table) :
    (path : List String) → Table → Option Table
  | [], t => f t
  | key :: path, t => do
    match (t.find? key).getD (.table (.mk true dotted [])) with
    | .value _ => none
    | .tables [] => none
    | .tables (last :: items) =>
      return t.insert key (.tables ((← update dotted f path last) :: items))
    | .table next =>
      if dotted && !next.isImplicit then none
      else return t.insert key (.table (← update dotted f path next))

/-- A pair with a plain key belongs to a table of its own, one with a dotted key to a table that
dotted keys have made. -/
def assign (t : Table) (path : List String) (key : String) (v : Value) : Option Table :=
  update true (fun t =>
    if t.isDotted = path.isEmpty ∨ (t.find? key).isSome then none
    else some (t.insert key (.value v))) path t

/-- Whether the pairs of an inline table go together. -/
def ofPairs? (pairs : List (List String × String × Value)) : Option Table :=
  pairs.foldlM (fun t (path, key, v) => t.assign path key v) empty

end Table

/-! ## Keys -/

def isBare (c : Char) : Bool :=
  isDigit c || ('a' ≤ c && c ≤ 'z') || ('A' ≤ c && c ≤ 'Z') || c == '-' || c == '_'

def simpleKey : Parser String := do
  return .ofList (← basicString <|> literalString <|> takeWhile1 isBare)

/-- The most parts of a dotted key, and the most arrays and inline tables inside each other. -/
def maxDepth : Nat := 79

/-- A key between blanks, in two parts: the way to its table and its name there. -/
def key : Parser (List String × String) := do
  let part : Parser String := do
    blanks
    let k ← simpleKey
    blanks
    return k
  let first ← part
  let keys := first :: (← many (do char '.'; part))
  if keys.length ≤ maxDepth then return (keys.dropLast, keys.getLast?.getD first) else failure

/-! ## Values -/

/-- The items of an array and its end. Every item takes characters, so there are no more rounds
than characters. -/
def items (value : Parser Value) : (rounds : Nat) → Parser Unit
  | 0 => failure
  | rounds + 1 => do
    gap
    match ← peek? with
    | some ']' => char ']'
    | _ =>
      discard value
      gap
      match ← peek? with
      | some ',' => char ','; items value rounds
      | _ => char ']'

/-- A key and a value. -/
def pair (value : Parser Value) : Parser (List String × String × Value) := do
  let (path, k) ← key
  char '='
  blanks
  return (path, k, ← value)

/-- An inline table. No comma stands behind its last pair. -/
def inlineTable (value : Parser Value) : Parser Unit := do
  char '\x7b'
  let item := do
    let p ← pair value
    blanks
    return p
  let pairs ← match ← optional item with
    | none => pure []
    | some first => (first :: ·) <$> many (do char ','; item)
  blanks
  char '\x7d'
  discard (Table.ofPairs? pairs : Option Table)

/-- A value with at most `depth` arrays and inline tables inside each other. -/
def value : (depth : Nat) → Parser Value
  | 0 => scalar
  | depth + 1 => do
    match ← peek? with
    | some '[' =>
      char '['
      items (value depth) ((← get).length + 1)
      return .other
    | some '\x7b' =>
      inlineTable (value depth)
      return .other
    | _ => scalar

/-! ## Statements -/

inductive Statement where
  | header (path : List String) (key : String)
  | arrayHeader (path : List String) (key : String)
  | assign (path : List String) (key : String) (v : Value)
  /-- A line without content. -/
  | blank

def statement : Parser Statement := do
  blanks
  match ← peek? with
  | some '[' =>
    char '['
    if (← peek?) = some '[' then
      char '['
      let (path, k) ← key
      literal "]]"
      lineEnd
      return .arrayHeader path k
    else
      let (path, k) ← key
      char ']'
      lineEnd
      return .header path k
  | some '\n' | some '\x0d' => newline; return .blank
  | some '#' => comment; newline <|> ended; return .blank
  | _ =>
    let (path, k, v) ← pair (value maxDepth)
    lineEnd
    return .assign path k v

/-- All statements up to the end of the text. A byte order mark in front does not count. -/
def statements : Parser (List Statement) := do
  discard (optional (char '\ufeff'))
  let all ← many statement
  blanks
  ended
  return all

/-! ## Documents -/

/-- The document so far, and the table that pairs go to. Until the next header that table is not
part of the document. -/
structure Building where
  root : Table
  /-- Where the current table belongs, unless it is the document itself. -/
  place : Option (List String × String)
  /-- Whether the current table is one of an array. -/
  inArray : Bool
  current : Table

/-- Put the current table where it belongs. -/
def Building.close (b : Building) : Option Table :=
  match b.place with
  | none => some b.current
  | some (path, key) =>
    b.root.update false (fun t =>
      if b.inArray then
        match (t.find? key).getD (.tables []) with
        | .tables items => some (t.insert key (.tables (b.current :: items)))
        | _ => none
      else some (t.insert key (.table b.current))) path

/-- A header can open a table that so far was only on the way to others. -/
def Building.openTable (root : Table) (path : List String) (key : String) :
    Option Building := do
  let root ← root.update false some path
  let found ← find? root path
  match found.find? key with
  | none => return ⟨root, some (path, key), false, .empty⟩
  | some (.table t) =>
    if t.isImplicit && !t.isDotted then
      let root ← root.update false (fun t => some (t.erase key)) path
      return ⟨root, some (path, key), false, t.opened⟩
    else none
  | some _ => none
where
  /-- The table at the end of a path. -/
  find? (t : Table) : List String → Option Table
    | [] => some t
    | key :: path =>
      match t.find? key with
      | some (.table t) => find? t path
      | some (.tables (t :: _)) => find? t path
      | _ => none

/-- The header of an array of tables, which is made with its first one. -/
def Building.openArray (root : Table) (path : List String) (key : String) :
    Option Building := do
  let root ← root.update false (fun t =>
    match (t.find? key).getD (.tables []) with
    | .tables items => some (t.insert key (.tables items))
    | _ => none) path
  return ⟨root, some (path, key), true, .empty⟩

def Building.apply (b : Building) : Statement → Option Building
  | .blank => some b
  | .assign path key v => (b.current.assign path key v).map fun current => { b with current }
  | .header path key => do Building.openTable (← b.close) path key
  | .arrayHeader path key => do Building.openArray (← b.close) path key

/-- The table that a whole text writes. -/
def ofText? (s : String) : Option Table := do
  let (all, _) ← StateT.run statements s.toList
  let b ← all.foldlM Building.apply ⟨.empty, none, false, .empty⟩
  b.close

end Toml
end BondingCurve
