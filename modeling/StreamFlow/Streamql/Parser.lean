import StreamFlow.Foundation.GoStrings
import StreamFlow.Foundation.Pattern

/-!
# Queries and plans

`parser.go` and `planner.go` of the query language. `Parse` matches the text of a query with one
regular expression and splits what it captures; `Planify` sorts out the select items that are
aggregates.
-/

namespace StreamFlow.Streamql

open Pattern GoStrings

structure Query where
  select : List String
  fromSource : String
  whereCond : String
  groupBy : List String
  windowMs : ℤ
deriving DecidableEq

/-- `[a-zA-Z0-9_]`, up to case. -/
def isName (c : Char) : Bool := isLetter c || c.isDigit || c = '_'

/-- The words before a clause, with blanks around them. -/
def keyword (words : List String) : Pattern :=
  .cat (seq (words.map fun w => .cat (many1 isBlank) (word w))) (many1 isBlank)

def selectRe : Pattern :=
  seq [
    .many isBlank, word "select", many1 isBlank, .capture 1 (many1 isAny),
    keyword ["from"], .capture 2 (many1 fun c => isName c || c = '.'),
    opt (.cat (keyword ["where"]) (.capture 3 (many1Lazy isAny))),
    opt (.cat (keyword ["group", "by"]) (.capture 4 (many1Lazy isAny))),
    opt (seq [keyword ["window"], .capture 5 (many1 Char.isDigit),
      opt (.capture 6 (.alt (word "ms") (word "s")))]),
    .many isBlank]

/-- A list of names between commas. -/
def commaList (text : List Char) : List String :=
  (splitComma text).map fun field => String.ofList (trimSpace field)

/-- The length of the window that the digits and the unit write; digits that are out of range write
none. -/
def windowLength (digits unit : List Char) : ℤ :=
  match atoi digits with
  | some v => if unit = ['s'] then (v * 1000).bmod (2 ^ 64) else v
  | none => 0

def parse (input : String) : Except String Query :=
  match selectRe.find? (trimSpace input.toList) with
  | none => .error "invalid query"
  | some m => .ok {
      select := commaList (submatch m 1)
      fromSource := String.ofList (submatch m 2)
      whereCond := String.ofList (trimSpace (submatch m 3))
      groupBy := if trimSpace (submatch m 4) ≠ [] then commaList (submatch m 4) else []
      windowMs :=
        if trimSpace (submatch m 5) ≠ [] then
          windowLength (trimSpace (submatch m 5)) (trimSpace (submatch m 6))
        else 0 }

structure Plan where
  source : String
  projections : List String
  filter : String
  groupBy : List String
  aggregates : List String
  windowMs : ℤ
deriving DecidableEq

/-- `strings.ToLower`, for the letters that are compared with ASCII ones. -/
def toLower (text : List Char) : List Char := text.map Char.toLower

/-- A select item that begins like an aggregate. -/
def isAggregate (item : String) : Bool :=
  let ls := toLower item.toList
  "count(".toList.isPrefixOf ls || "sum(".toList.isPrefixOf ls || "avg(".toList.isPrefixOf ls

/-- `Planify` of a query that is not nil. -/
def planify (q : Query) : Plan where
  source := q.fromSource
  projections := q.select
  filter := q.whereCond
  groupBy := q.groupBy
  aggregates := q.select.filter isAggregate
  windowMs := q.windowMs

end StreamFlow.Streamql
