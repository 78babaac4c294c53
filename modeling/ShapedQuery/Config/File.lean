import ShapedQuery.Format.Configuration
import ShapedQuery.Json.Writer

/-! # Configuration files

A configuration is kept in a file of its directory, as indented JSON with a line break at the
end. -/

namespace ShapedQuery

namespace Configuration

/-- The name of the file. -/
def fileName : String := "configuration.json"

/-- The title of the schema that is written beside a configuration. -/
def schemaTitle : String := "ParsedConfiguration"

/-! ### Reading -/

/-- Why a configuration cannot be read. -/
inductive LoadError where
  | noFile (path : String)
  | notText (path : String)
  | malformed (f : Fault)
  | unsupportedVersion (version : UInt32)
  deriving DecidableEq

/-- The words for an error, as far as there are any. -/
def LoadError.message? : LoadError → Option String
  | .noFile path => some s!"I/O error: {path}: No such file or directory (os error 2)"
  | .notText path => some s!"I/O error: {path}: stream did not contain valid UTF-8"
  | .malformed f => f.cause.message?
  | .unsupportedVersion version =>
    some s!"unsupported configuration version {version}, expected version {currentVersion}"

/-- Read a configuration from the text of its file. -/
def parse (text : String) : Except LoadError Configuration :=
  match Doc.parse read text with
  | .error f => .error (.malformed f)
  | .ok c => if c.version = currentVersion then .ok c else .error (.unsupportedVersion c.version)

/-- Read a configuration from the file in a directory, given what the file holds, if it is
there. -/
def load (directory : String) (contents : Option ByteArray) : Except LoadError Configuration :=
  let path := directory ++ "/" ++ fileName
  match contents with
  | none => .error (.noFile path)
  | some bytes =>
    match String.fromUTF8? bytes with
    | none => .error (.notText path)
    | some text => parse text

/-! ### Writing -/

/-- The text of the file of a configuration. -/
def text (c : Configuration) : String := c.json.pretty ++ "\n"

/-- What stands at the place where a configuration should be written. -/
inductive Place where
  | directory
  | file

/-- Why a configuration cannot be written. -/
inductive SaveError where
  | notADirectory
  deriving DecidableEq

/-- The text that is written; only a directory can hold the file. -/
def save (c : Configuration) : Place → Except SaveError String
  | .directory => .ok c.text
  | .file => .error .notADirectory

/-- The same configuration, whatever the order in maps. -/
def same (a b : Configuration) : Bool := a.json.same b.json

end Configuration

end ShapedQuery
