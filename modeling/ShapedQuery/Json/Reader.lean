import ShapedQuery.Json.Doc

/-! # Reading typed values from documents

A reader takes a document to a value or to the first fault in the text.  This module has the
readers for plain values (`Doc.string`, `Doc.flag`, `Doc.nat`, `Doc.json`), for lists and maps,
for choices written as an object with one key, and for records.

A record is an object whose keys are the record's fields in any order: unknown keys are passed
over and a repeated field is a fault.  It may also be an array of the fields in their order,
where fields at the end may be missing.  `Fields` lists the fields with their readers, `Slots` is
what has been read of them so far.

A fault has a line.  A few faults have no place of their own: they are noticed only when the
value has been passed, and the container around it gives them its line (`Fault.place`). -/

namespace ShapedQuery

/-! ### Faults -/

/-- Why a document is refused. -/
inductive Cause where
  /-- The text is no JSON, or not of the shape that is asked for. -/
  | malformed
  /-- A sort direction other than `1` and `-1`. -/
  | direction (given : Int)
  /-- A resolver argument given twice. -/
  | repeatedArgument (name : String)
  deriving DecidableEq

/-- The words for a cause, where there are any. -/
def Cause.message? : Cause → Option String
  | .malformed => none
  | .direction given => some s!"invalid direction {given}, expected 1 or -1"
  | .repeatedArgument name => some s!"duplicate resolver argument '{name}'"

/-- Why and on which line a document is refused; the line may be left to what is around. -/
structure Fault where
  line : Option Nat
  cause : Cause
  deriving DecidableEq

/-- Give a fault without a line its line. -/
def Fault.place (line : Nat) (f : Fault) : Fault := { f with line := some (f.line.getD line) }

/-- The text does not have the right shape, noticed on a line. -/
def Fault.on (line : Nat) : Fault := ⟨some line, .malformed⟩

/-- No alternative fits. -/
def Fault.unplaced : Fault := ⟨none, .malformed⟩

/-- What reading gives. -/
abbrev Read (α : Type) := Except Fault α

/-- Give a fault without a line its line. -/
def Read.placed {α : Type} (line : Nat) (r : Read α) : Read α := r.mapError (Fault.place line)

/-! ### Passing over -/

mutual

/-- Pass over a value: only its form matters. -/
def Doc.skim : Doc → Read Unit
  | .arr _ items => items.skim
  | .obj _ members => members.skim
  | .fault _ (some line) => .error (.on line)
  | _ => .ok ()

def Items.skim : Items → Read Unit
  | .closed _ => .ok ()
  | .broken line => .error (.on line)
  | .cons value _ rest =>
    match value.skim with
    | .ok _ => rest.skim
    | .error f => .error f

def Members.skim : Members → Read Unit
  | .closed _ => .ok ()
  | .broken _ skipped => .error (.on skipped)
  | .cons _ _ value _ rest =>
    match value.skim with
    | .ok _ => rest.skim
    | .error f => .error f

end

/-! ### Any JSON value -/

mutual

/-- Any JSON value; of a repeated key the last value counts, in the first place. -/
def Doc.json : Doc → Read Json
  | .null _ => .ok .null
  | .bool _ b => .ok (.bool b)
  | .int _ n => .ok (.int n)
  | .float _ x => .ok (.float x)
  | .str _ s => .ok (.str s)
  | .arr _ items =>
    match items.jsons with
    | .ok js => .ok (.arr js)
    | .error f => .error f
  | .obj _ members =>
    match members.jsons [] with
    | .ok es => .ok (.obj es)
    | .error f => .error f
  | .fault line _ => .error (.on line)

def Items.jsons : Items → Read (List Json)
  | .closed _ => .ok []
  | .broken line => .error (.on line)
  | .cons value _ rest =>
    match value.json with
    | .error f => .error f
    | .ok j =>
      match rest.jsons with
      | .ok js => .ok (j :: js)
      | .error f => .error f

def Members.jsons : Members → Entries Json → Read (Entries Json)
  | .closed _, done => .ok done
  | .broken line _, _ => .error (.on line)
  | .cons key _ value _ rest, done =>
    match key with
    | .error line => .error (.on line)
    | .ok key =>
      match value.json with
      | .ok j => rest.jsons (done.insert key j)
      | .error f => .error f

end

namespace Doc

variable {α : Type}

/-- The value is not of the kind that is asked for. -/
def reject (d : Doc) : Read α := .error (.on d.line)

/-! ### Plain values -/

def string : Doc → Read String
  | .str _ s => .ok s
  | d => d.reject

def flag : Doc → Read Bool
  | .bool _ b => .ok b
  | d => d.reject

/-- A whole number of a signed 64-bit word. -/
def signed : Doc → Read Int
  | .int line n => if n ≤ Json.maxSigned then .ok n else .error (.on line)
  | d => d.reject

/-- A whole number of at most `bound`. -/
def nat (bound : Nat) : Doc → Read Nat
  | .int line n => if 0 ≤ n ∧ n ≤ bound then .ok n.toNat else .error (.on line)
  | d => d.reject

/-- A number of an unsigned 32-bit word. -/
def word32 (d : Doc) : Read UInt32 := (d.nat 4294967295).map Nat.toUInt32

/-- A number of an unsigned byte. -/
def byte (d : Doc) : Read UInt8 := (d.nat 255).map Nat.toUInt8

/-- `null` is nothing. -/
def optional (read : Doc → Read α) : Doc → Read (Option α)
  | .null _ => .ok none
  | d => (read d).map some

end Doc

/-! ### Lists and maps -/

section containers

variable {α : Type}

/-- All items. -/
def Items.list (read : Doc → Read α) : Items → Read (List α)
  | .closed _ => .ok []
  | .broken line => .error (.on line)
  | .cons value after rest =>
    match Read.placed after (read value) with
    | .error f => .error f
    | .ok a =>
      match rest.list read with
      | .ok as => .ok (a :: as)
      | .error f => .error f

/-- All members: `add` takes a name and its value to what has been read so far. -/
def Members.fold (read : Doc → Read α) {β : Type} (add : β → String → α → Read β) :
    Members → β → Read β
  | .closed _, done => .ok done
  | .broken line _, _ => .error (.on line)
  | .cons key _ value after rest, done =>
    match key with
    | .error line => .error (.on line)
    | .ok key =>
      match Read.placed after ((read value).bind (add done key)) with
      | .ok done => rest.fold read add done
      | .error f => .error f

namespace Doc

/-- An array of values. -/
def list (read : Doc → Read α) : Doc → Read (List α)
  | .arr _ items => items.list read
  | d => d.reject

/-- A map in order; of a repeated name the last value counts, in the first place. -/
def entries (read : Doc → Read α) : Doc → Read (Entries α)
  | .obj _ members => members.fold read (fun done key a => .ok (done.insert key a)) []
  | d => d.reject

/-- A map by increasing name; of a repeated name the last value counts. -/
def sorted (read : Doc → Read α) : Doc → Read (Entries α)
  | .obj _ members => members.fold read (fun done key a => .ok (done.insertSorted key a)) []
  | d => d.reject

/-- A map in order, where no name may be repeated; `repeated` says what is wrong then. -/
def distinct (repeated : String → Cause) (read : Doc → Read α) : Doc → Read (Entries α)
  | .obj _ members =>
    members.fold read
      (fun done key a =>
        if done.has key then .error ⟨none, repeated key⟩ else .ok (done.insert key a)) []
  | d => d.reject

end Doc

end containers

/-! ### Choices -/

namespace Doc

/-- The only member of an object. -/
def single : Doc → Read (String × Doc)
  | .obj line members =>
    match members with
    | .cons (.ok key) _ value _ (.closed _) => .ok (key, value)
    | _ => .error (.on line)
  | d => d.reject

/-- The name of an alternative without contents: a string, or an object with the name as its
only key and `null` under it. -/
def name (d : Doc) : Read String :=
  match d with
  | .str _ s => .ok s
  | _ =>
    match d.single with
    | .ok (key, .null _) => .ok key
    | .ok (_, value) => value.reject
    | .error f => .error f

/-- One of several names. -/
def oneOf {α : Type} (names : List (String × α)) (d : Doc) : Read α :=
  d.name.bind fun s =>
    match Entries.get? names s with
    | some a => .ok a
    | none => d.reject

end Doc

/-! ### Records -/

/-- The fields of a record, each with its reader. -/
inductive Fields : List Type → Type 1 where
  | done : Fields []
  | field {α : Type} {αs : List Type} (name : String) (read : Doc → Read α) (rest : Fields αs) :
      Fields (α :: αs)

/-- What has been read of a record. -/
abbrev Slots : List Type → Type
  | [] => Unit
  | α :: αs => Option α × Slots αs

namespace Fields

/-- Nothing has been read. -/
def empty : {αs : List Type} → Fields αs → Slots αs
  | _, .done => ()
  | _, .field _ _ rest => (none, rest.empty)

/-- Read one member: an unknown one is passed over, a known one must be new. -/
def put (key : String) (colon : Nat) (value : Doc) :
    {αs : List Type} → Fields αs → Slots αs → Read (Slots αs)
  | _, .done, _ => value.skim.map fun _ => ()
  | _, .field name read rest, (slot, slots) =>
    if key = name then
      match slot with
      | some _ => .error (.on colon)
      | none => (read value).map fun a => (some a, slots)
    else (put key colon value rest slots).map fun slots => (slot, slots)

end Fields

/-- The fields among the members, and the line of the closing brace. -/
def Members.record {αs : List Type} (fields : Fields αs) :
    Members → Slots αs → Read (Nat × Slots αs)
  | .closed line, slots => .ok (line, slots)
  | .broken line _, _ => .error (.on line)
  | .cons key colon value after rest, slots =>
    match key with
    | .error line => .error (.on line)
    | .ok key =>
      match Read.placed after (fields.put key colon value slots) with
      | .ok slots => rest.record fields slots
      | .error f => .error f

/-- The fields in their order, and the line of the closing bracket. -/
def Items.record : {αs : List Type} → Fields αs → Items → Read (Nat × Slots αs)
  | _, fields, .closed line => .ok (line, fields.empty)
  | _, _, .broken line => .error (.on line)
  | _, .done, .cons value _ _ => .error (.on value.line)
  | _, .field _ read rest, .cons value after items =>
    match Read.placed after (read value) with
    | .error f => .error f
    | .ok a => (Items.record rest items).map fun (line, slots) => (line, (some a, slots))

namespace Doc

/-- The fields of a record written as an object, and the line on which it closes. -/
def object {αs : List Type} (fields : Fields αs) : Doc → Read (Nat × Slots αs)
  | .obj _ members => members.record fields fields.empty
  | d => d.reject

/-- The fields of a record written as an object or an array, and the line on which it closes. -/
def record {αs : List Type} (fields : Fields αs) : Doc → Read (Nat × Slots αs)
  | .arr _ items => items.record fields
  | d => d.object fields

/-- The fields of a record, which may be an array only if `listed` holds. -/
def recordIn (listed : Bool) {αs : List Type} (fields : Fields αs) (d : Doc) :
    Read (Nat × Slots αs) :=
  if listed then d.record fields else d.object fields

end Doc

/-- A field that must be there; the record closes on `line`. -/
def required {α : Type} (line : Nat) : Option α → Read α
  | some a => .ok a
  | none => .error (.on line)

/-! ### Whole texts -/

/-- Read a text that holds one value and nothing else. -/
def Doc.parse {α : Type} (read : Doc → Read α) (text : String) : Read α :=
  let reading := Reading.ofText text
  match read reading.doc with
  | .error f => .error f
  | .ok a =>
    match reading.trailing with
    | some line => .error (.on line)
    | none => .ok a

/-- Read a JSON value as a typed value. -/
def Doc.decode {α : Type} (read : Doc → Read α) (j : Json) : Read α := read (Doc.ofJson j)

end ShapedQuery
