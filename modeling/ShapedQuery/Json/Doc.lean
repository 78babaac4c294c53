import ShapedQuery.Json.Token

/-! # JSON documents

A `Doc` is a JSON text as it was read, before it is asked to be anything in particular: repeated
keys are still there, every part knows its line, and where the text breaks off the document has a
fault.  Readers of typed values walk a document from front to back, so of two mistakes the one
that comes first in the text is found.

`Reading.ofText` builds the document of a text from its tokens with a stack of open containers;
`Doc.ofJson` is the document of a value. -/

namespace ShapedQuery

mutual

/-- A part of a document, with its line.  A `fault` has no value: a reader that wants it stops at
`line`, and one that passes over it goes on, or stops at `skipped`. -/
inductive Doc where
  | null (line : Nat)
  | bool (line : Nat) (b : Bool)
  | int (line : Nat) (n : Int)
  | float (line : Nat) (x : Double)
  | str (line : Nat) (s : String)
  | arr (line : Nat) (items : Items)
  | obj (line : Nat) (members : Members)
  | fault (line : Nat) (skipped : Option Nat)

/-- The items of an array, up to the line where it closes or breaks off.  `after` is the line a
reader is on once it has passed the item and the comma behind it. -/
inductive Items where
  | closed (line : Nat)
  | broken (line : Nat)
  | cons (value : Doc) (after : Nat) (rest : Items)

/-- The members of an object, up to the line where it closes or breaks off.  A key without a
value has the line at which it breaks off; `colon` is the line a reader is on after the key, and
`after` the line it is on after the value. -/
inductive Members where
  | closed (line : Nat)
  | broken (line skipped : Nat)
  | cons (key : Except Nat String) (colon : Nat) (value : Doc) (after : Nat) (rest : Members)

end

instance : Inhabited Doc := ⟨.null 0⟩

namespace Doc

/-- The line on which a reader of the value stops if it does not like it. -/
def line : Doc → Nat
  | .null line => line
  | .bool line _ => line
  | .int line _ => line
  | .float line _ => line
  | .str line _ => line
  | .arr line _ => line
  | .obj line _ => line
  | .fault line _ => line

end Doc

mutual

/-- How deep arrays and objects are nested. -/
def Doc.depth : Doc → Nat
  | .arr _ items => items.depth + 1
  | .obj _ members => members.depth + 1
  | _ => 0

def Items.depth : Items → Nat
  | .cons value _ rest => max value.depth rest.depth
  | _ => 0

def Members.depth : Members → Nat
  | .cons _ _ value _ rest => max value.depth rest.depth
  | _ => 0

end

/-! ### The document of a value -/

mutual

/-- The document of a value, all on one line. -/
def Doc.ofJson : Json → Doc
  | .null => .null 1
  | .bool b => .bool 1 b
  | .int n => .int 1 n
  | .float x => .float 1 x
  | .str s => .str 1 s
  | .arr items => .arr 1 (Items.ofJson items)
  | .obj entries => .obj 1 (Members.ofJson entries)

def Items.ofJson : List Json → Items
  | [] => .closed 1
  | j :: js => .cons (Doc.ofJson j) 1 (Items.ofJson js)

def Members.ofJson : List (String × Json) → Members
  | [] => .closed 1
  | (k, j) :: es => .cons (.ok k) 1 (Doc.ofJson j) 1 (Members.ofJson es)

end

/-! ### Reading tokens -/

namespace Doc

/-- A member that has been read. -/
structure Member where
  key : Except Nat String
  colon : Nat
  value : Doc
  after : Nat

/-- Items read last first, in front of an end. -/
def itemsBefore (tail : Items) (done : List (Doc × Nat)) : Items :=
  done.foldl (fun rest (d, after) => .cons d after rest) tail

/-- Members read last first, in front of an end. -/
def membersBefore (tail : Members) (done : List Member) : Members :=
  done.foldl (fun rest m => .cons m.key m.colon m.value m.after rest) tail

/-- A container whose next value is being read. -/
inductive Frame where
  | arr (line : Nat) (done : List (Doc × Nat))
  | obj (line : Nat) (done : List Member) (key : Except Nat String) (colon : Nat)

/-- What comes next, inside which open containers, innermost first. -/
inductive State where
  /-- A value. -/
  | value (outer : List Frame)
  /-- The first item of an array, or its end. -/
  | firstItem (line : Nat) (outer : List Frame)
  /-- A comma or the end of the array, after an item. -/
  | afterItem (line : Nat) (done : List (Doc × Nat)) (item : Doc) (outer : List Frame)
  /-- An item, after a comma. -/
  | nextItem (line : Nat) (done : List (Doc × Nat)) (item : Doc) (outer : List Frame)
  /-- The first key of an object, or its end. -/
  | firstKey (line : Nat) (outer : List Frame)
  /-- A key, after a comma. -/
  | nextKey (line : Nat) (done : List Member) (outer : List Frame)
  /-- A colon. -/
  | colon (line : Nat) (done : List Member) (key : Except Nat String) (outer : List Frame)
  /-- A comma or the end of the object, after a member. -/
  | afterMember (line : Nat) (done : List Member) (key : Except Nat String) (mid : Nat)
      (value : Doc) (outer : List Frame)
  /-- Nothing: the document is complete. -/
  | complete (doc : Doc)
  /-- The end, with the line of what followed the document, if anything did. -/
  | ended (doc : Doc) (trailing : Option Nat)

/-- How many arrays and objects may be nested. -/
def maxDepth : Nat := 127

/-- A container inside `outer`, unless it is nested too deep. -/
def guarded (outer : List Frame) (line : Nat) (skipped : Option Nat) (doc : Doc) : Doc :=
  if outer.length < maxDepth then doc else .fault line skipped

/-- Hand a complete value to the innermost container. -/
def receive (doc : Doc) : List Frame → State
  | [] => .complete doc
  | .arr line done :: outer => .afterItem line done doc outer
  | .obj line done key colon :: outer => .afterMember line done key colon doc outer

def closeArr (line : Nat) (done : List (Doc × Nat)) (close : Nat) (outer : List Frame) : State :=
  receive (guarded outer line none (.arr line (itemsBefore (.closed close) done))) outer

def closeObj (line : Nat) (done : List Member) (close : Nat) (outer : List Frame) : State :=
  receive (guarded outer line none (.obj line (membersBefore (.closed close) done))) outer

/-- The document whose innermost value `doc` breaks off, at `line` for a reader and at `skipped`
for one that passes over it. -/
def abandon (line skipped : Nat) (doc : Doc) : List Frame → Doc
  | [] => doc
  | .arr first done :: outer =>
    abandon line skipped
      (guarded outer first (some skipped)
        (.arr first (itemsBefore (.broken line) ((doc, line) :: done)))) outer
  | .obj first done key colon :: outer =>
    abandon line skipped
      (guarded outer first (some skipped)
        (.obj first (membersBefore (.broken line skipped) (⟨key, colon, doc, line⟩ :: done))))
      outer

/-- A value is missing or broken. -/
def abort (line skipped : Nat) (outer : List Frame) : State :=
  .ended (abandon line skipped (.fault line (some skipped)) outer) none

/-- An array breaks off after its items. -/
def abortArr (first : Nat) (done : List (Doc × Nat)) (line : Nat) (outer : List Frame) : State :=
  .ended (abandon line line
    (guarded outer first (some line) (.arr first (itemsBefore (.broken line) done))) outer) none

/-- An object breaks off after its members. -/
def abortObj (first : Nat) (done : List Member) (line skipped : Nat) (outer : List Frame) :
    State :=
  .ended (abandon line skipped
    (guarded outer first (some skipped) (.obj first (membersBefore (.broken line skipped) done)))
    outer) none

/-- The document of a number; a fault if it is too large. -/
def ofNumeral (line : Nat) (n : Numeral) : Doc :=
  match n.value? with
  | some (.int i) => .int line i
  | some (.float x) => .float line x
  | _ => .fault line none

/-- The document of a string; a fault if it has no value. -/
def ofString (line : Nat) : Except Nat String → Doc
  | .ok s => .str line s
  | .error failed => .fault failed none

/-- A token where a value should start. -/
def startValue (outer : List Frame) (t : Token.Placed) : State :=
  match t.token with
  | .null => receive (.null t.line) outer
  | .bool b => receive (.bool t.line b) outer
  | .number n => receive (ofNumeral t.line n) outer
  | .str value => receive (ofString t.line value) outer
  | .openArr => .firstItem t.line outer
  | .openObj => .firstKey t.line outer
  | .broken line => abort line line outer
  | .brokenStr line skipped => abort line skipped outer
  | _ => abort t.line t.line outer

/-- A token where a key should stand. -/
def startKey (line : Nat) (done : List Member) (outer : List Frame) (t : Token.Placed) : State :=
  match t.token with
  | .str key => .colon line done key outer
  | .brokenStr l skipped => abortObj line done l skipped outer
  | _ => abortObj line done t.line t.line outer

/-- One token. -/
def State.step (t : Token.Placed) : State → State
  | .value outer => startValue outer t
  | .firstItem line outer =>
    match t.token with
    | .closeArr => closeArr line [] t.line outer
    | _ => startValue (.arr line [] :: outer) t
  | .afterItem line done item outer =>
    match t.token with
    | .closeArr => closeArr line ((item, t.line) :: done) t.line outer
    | .comma => .nextItem line done item outer
    | _ => abortArr line ((item, t.line) :: done) t.line outer
  | .nextItem line done item outer => startValue (.arr line ((item, t.line) :: done) :: outer) t
  | .firstKey line outer =>
    match t.token with
    | .closeObj => closeObj line [] t.line outer
    | _ => startKey line [] outer t
  | .nextKey line done outer => startKey line done outer t
  | .colon line done key outer =>
    match t.token with
    | .colon => .value (.obj line done key t.line :: outer)
    | _ => abort t.line t.line (.obj line done key t.line :: outer)
  | .afterMember line done key mid v outer =>
    let done := ⟨key, mid, v, t.line⟩ :: done
    match t.token with
    | .closeObj => closeObj line done t.line outer
    | .comma => .nextKey line done outer
    | _ => abortObj line done t.line t.line outer
  | .complete doc =>
    match t.token with
    | .eof => .ended doc none
    | _ => .ended doc (some t.line)
  | .ended doc trailing => .ended doc trailing

end Doc

/-- A text that was read: its document, and the line of what follows it, if anything does. -/
structure Reading where
  doc : Doc
  trailing : Option Nat

/-- What the reader has when the tokens are used up. -/
def Doc.State.reading : Doc.State → Reading
  | .complete doc => ⟨doc, none⟩
  | .ended doc trailing => ⟨doc, trailing⟩
  | _ => ⟨.fault 1 (some 1), none⟩

/-- Read a text. -/
def Reading.ofText (text : String) : Reading :=
  ((Token.scan text).foldl (fun state t => state.step t) (Doc.State.value [])).reading

end ShapedQuery
