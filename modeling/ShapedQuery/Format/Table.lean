import ShapedQuery.Format.Column
import ShapedQuery.Format.Computed
import ShapedQuery.Metadata.Table

/-! # Tables in JSON

A field is an object with the key `kind`, the keys that belong to its kind, and `can_read` for
its rules.  Since the kind may come last, the keys other than `can_read` are first gathered, and
what is wrong with them is noticed only at the closing brace. -/

namespace ShapedQuery

/-! ### Permissions and users -/

namespace Predicate

def names : List (String × Predicate) := [("logged_in", .loggedIn), ("admin", .admin)]

def name : Predicate → String
  | .loggedIn => "logged_in"
  | .admin => "admin"

end Predicate

namespace Permission

def predicateFields : Fields [Predicate] := .field "predicate" (Doc.oneOf Predicate.names) .done

/-- A string is a group, an object holds a predicate. -/
def read (d : Doc) : Read Permission :=
  match d.json with
  | .error f => .error f
  | .ok _ =>
    match d with
    | .str _ name => .ok (.group name)
    | _ =>
      match d.object predicateFields with
      | .ok (_, some p, _) => .ok (.predicate p)
      | _ => .error .unplaced

def json : Permission → Json
  | .group name => .str name
  | .predicate p => .obj [("predicate", .str p.name)]

end Permission

namespace User

def fields : Fields [String, List String, Bool] :=
  .field "_id" Doc.string <| .field "groups" (Doc.list Doc.string) <|
    .field "is_admin" Doc.flag .done

def read (d : Doc) : Read User := do
  let (line, id, groups, isAdmin, _) ← d.record fields
  return ⟨← required line id, groups.getD [], isAdmin.getD false⟩

def json (u : User) : Json :=
  .obj [("_id", .str u.id), ("groups", .arr (u.groups.map .str)), ("is_admin", .bool u.isAdmin)]

end User

/-! ### Indexes -/

namespace Direction

/-- `1` is ascending and `-1` descending. -/
def read (d : Doc) : Read Direction :=
  match d.signed with
  | .error f => .error f
  | .ok n =>
    if n = 1 then .ok .ascending
    else if n = -1 then .ok .descending
    else .error ⟨none, .direction n⟩

def number : Direction → Int
  | .ascending => 1
  | .descending => -1

def json (d : Direction) : Json := .int d.number

end Direction

namespace Collation

def fields : Fields [String, UInt8] :=
  .field "locale" Doc.string <| .field "strength" Doc.byte .done

def read (d : Doc) : Read Collation := do
  let (line, locale, strength, _) ← d.record fields
  return ⟨← required line locale, ← required line strength⟩

def json (c : Collation) : Json :=
  .obj [("locale", .str c.locale), ("strength", .int c.strength.toNat)]

end Collation

namespace IndexOptions

def fields : Fields [Bool, Option (Entries Json), Option Collation, Bool] :=
  .field "unique" Doc.flag <|
    .field "partialFilterExpression" (Doc.optional (Doc.entries Doc.json)) <|
    .field "collation" (Doc.optional Collation.read) <|
    .field "concurrently" Doc.flag .done

def read (d : Doc) : Read IndexOptions := do
  let (_, unique, filter, collation, concurrently, _) ← d.record fields
  return ⟨unique.getD false, filter.getD none, collation.getD none, concurrently.getD false⟩

def json (o : IndexOptions) : Json :=
  .obj <| [("unique", .bool o.unique)] ++
    (match o.partialFilter with
      | some filter => [("partialFilterExpression", .obj filter)]
      | none => []) ++
    (match o.collation with
      | some c => [("collation", c.json)]
      | none => []) ++
    [("concurrently", .bool o.concurrently)]

end IndexOptions

namespace IndexInfo

def readFields (d : Doc) : Read (Entries Direction) := d.entries Direction.read

def fieldsJson (fields : Entries Direction) : Json :=
  .obj (fields.map fun (name, direction) => (name, direction.json))

def slots : Fields [Entries Direction, IndexOptions] :=
  .field "fields" readFields <| .field "options" IndexOptions.read .done

def read (d : Doc) : Read IndexInfo := do
  let (line, fields, options, _) ← d.record slots
  return ⟨← required line fields, options.getD .default⟩

def json (i : IndexInfo) : Json :=
  .obj [("fields", fieldsJson i.fields), ("options", i.options.json)]

end IndexInfo

/-! ### Fields -/

namespace Field

/-- The three kinds of fields. -/
inductive Kind where
  | column
  | computed
  | relation
  deriving DecidableEq

/-- A kind by its name or its number. -/
def Kind.read : Doc → Read Kind
  | .str _ "column" => .ok .column
  | .str _ "computed" => .ok .computed
  | .str _ "relation" => .ok .relation
  | .int _ 0 => .ok .column
  | .int _ 1 => .ok .computed
  | .int _ 2 => .ok .relation
  | d => d.reject

def kindFields : Fields [Kind] := .field "kind" Kind.read .done

def computedFields : Fields [Computed] := .field "expression" Computed.read .done

def relationFields : Fields [JoinSpec] := .field "join" JoinSpec.read .done

/-- What has been gathered from the members of a field. -/
structure Gathered where
  rules : Option (List Permission)
  others : List (String × Doc)

/-- Gather the members: the rules are read at once, the others only have to be JSON. -/
def gather : Members → Gathered → Read (Nat × Gathered)
  | .closed line, done => .ok (line, done)
  | .broken line _, _ => .error (.on line)
  | .cons key colon value after rest, done =>
    match key with
    | .error line => .error (.on line)
    | .ok key =>
      if key = "can_read" then
        match done.rules with
        | some _ => .error (.on colon)
        | none =>
          match Read.placed after (value.list Permission.read) with
          | .ok rules => gather rest { done with rules := some rules }
          | .error f => .error f
      else
        match value.json with
        | .ok _ => gather rest { done with others := done.others ++ [(key, value)] }
        | .error f => .error f

/-- Members that were gathered, as members that close on `line`. -/
def members (line : Nat) (others : List (String × Doc)) : Members :=
  others.foldr (fun (key, value) rest => .cons (.ok key) line value line rest) (.closed line)

/-- The kind of a field from its members. -/
def readKind (ms : Members) : Read FieldKind := do
  let (line, kind, _) ← ms.record kindFields kindFields.empty
  match ← required line kind with
  | .column =>
    let (line, slots) ← ms.record Column.fields Column.fields.empty
    return .column (← Column.ofSlots line slots)
  | .computed =>
    let (line, e, _) ← ms.record computedFields computedFields.empty
    return .computed (← required line e)
  | .relation =>
    let (line, join, _) ← ms.record relationFields relationFields.empty
    return .relation (← required line join)

def read : Doc → Read Field
  | .obj _ ms =>
    match gather ms ⟨none, []⟩ with
    | .error f => .error f
    | .ok (line, gathered) =>
      match readKind (members line gathered.others) with
      | .ok kind => .ok ⟨kind, gathered.rules.getD []⟩
      | .error _ => .error (.on line)
  | d => d.reject

def kindEntries : FieldKind → Entries Json
  | .column c => ("kind", .str "column") :: c.entries
  | .computed e => [("kind", .str "computed"), ("expression", e.json)]
  | .relation join => [("kind", .str "relation"), ("join", join.json)]

def json (f : Field) : Json :=
  .obj <| kindEntries f.kind ++
    match f.rules with
    | [] => []
    | rules => [("can_read", .arr (rules.map Permission.json))]

end Field

/-! ### Tables and fragments -/

namespace Table

def slots : Fields [Entries Field, List IndexInfo] :=
  .field "fields" (Doc.entries Field.read) <| .field "indexes" (Doc.list IndexInfo.read) .done

def read (d : Doc) : Read Table := do
  let (line, fields, indexes, _) ← d.record slots
  return ⟨← required line fields, indexes.getD []⟩

def json (t : Table) : Json :=
  .obj <| ("fields", .obj (t.fields.map fun (name, field) => (name, field.json))) ::
    match t.indexes with
    | [] => []
    | indexes => [("indexes", .arr (indexes.map IndexInfo.json))]

end Table

namespace Selection

def nestedFields : Fields [String, String] :=
  .field "name" Doc.string <| .field "fragment" Doc.string .done

/-- A string is a field, an object a field with a fragment. -/
def read (d : Doc) : Read Selection :=
  match d.json with
  | .error f => .error f
  | .ok _ =>
    match d with
    | .str _ name => .ok (.field name)
    | _ =>
      match d.object nestedFields with
      | .ok (_, some name, some fragment, _) => .ok (.nested name fragment)
      | _ => .error .unplaced

def json : Selection → Json
  | .field name => .str name
  | .nested name fragment => .obj [("name", .str name), ("fragment", .str fragment)]

end Selection

namespace Fragment

def slots : Fields [String, List Selection] :=
  .field "table" Doc.string <| .field "fields" (Doc.list Selection.read) .done

def read (d : Doc) : Read Fragment := do
  let (line, table, selections, _) ← d.record slots
  return ⟨← required line table, ← required line selections⟩

def json (f : Fragment) : Json :=
  .obj [("table", .str f.table), ("fields", .arr (f.selections.map Selection.json))]

end Fragment

namespace Metadata

def slots : Fields [Entries Table, Entries Fragment] :=
  .field "tables" (Doc.sorted Table.read) <| .field "fragments" (Doc.sorted Fragment.read) .done

def read (d : Doc) : Read Metadata := do
  let (line, tables, fragments, _) ← d.record slots
  return ⟨← required line tables, fragments.getD []⟩

def json (m : Metadata) : Json :=
  .obj [("tables", .obj (m.tables.map fun (name, table) => (name, table.json))),
    ("fragments", .obj (m.fragments.map fun (name, fragment) => (name, fragment.json)))]

end Metadata

end ShapedQuery
