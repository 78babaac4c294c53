import ShapedQuery.Format.Table
import ShapedQuery.Query.Request

/-! # Requests in JSON -/

namespace ShapedQuery

namespace Selector

/-- A string is a key, an object a filter. -/
def read (d : Doc) : Read Selector :=
  match d.json with
  | .error f => .error f
  | .ok (.str key) => .ok (.id key)
  | .ok (.obj entries) => .ok (.filter entries)
  | .ok _ => .error .unplaced

def json : Selector → Json
  | .id key => .str key
  | .filter entries => .obj entries

end Selector

namespace Request

def readArgs (d : Doc) : Read (Entries Json) := d.distinct .repeatedArgument Doc.json

def slots : Fields [String, Selector, Entries Direction, Option UInt32, Option UInt32,
    Option Collation, Entries Json] :=
  .field "fragment" Doc.string <| .field "selector" Selector.read <|
    .field "sort" (Doc.entries Direction.read) <| .field "limit" (Doc.optional Doc.word32) <|
    .field "skip" (Doc.optional Doc.word32) <| .field "collation" (Doc.optional Collation.read) <|
    .field "resolverArgs" readArgs .done

def read (d : Doc) : Read Request := do
  let (line, fragment, selector, sort, limit, skip, collation, args, _) ← d.record slots
  return {
    fragment := ← required line fragment
    selector := selector.getD (.filter [])
    sort := sort.getD []
    limit := limit.getD none
    skip := skip.getD none
    collation := collation.getD none
    resolverArgs := args.getD [] }

/-- A number, or null if there is none. -/
def numberJson : Option UInt32 → Json
  | some n => .int n.toNat
  | none => .null

def json (r : Request) : Json :=
  .obj [("fragment", .str r.fragment), ("selector", r.selector.json),
    ("sort", IndexInfo.fieldsJson r.sort), ("limit", numberJson r.limit),
    ("skip", numberJson r.skip),
    ("collation", match r.collation with
      | some c => c.json
      | none => .null),
    ("resolverArgs", .obj r.resolverArgs)]

end Request

end ShapedQuery
