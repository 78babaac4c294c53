import ShapedQuery.Metadata.Table

/-! # Configurations -/

namespace ShapedQuery

/-- The settings of the compiler. -/
structure Settings where
  maxFragmentDepth : UInt32
  currentUserTable : String
  deriving DecidableEq

def Settings.default : Settings := ⟨10, "Users"⟩

/-- A configuration as it is written in a file. -/
structure Configuration where
  version : UInt32
  settings : Settings
  metadata : Metadata

namespace Configuration

/-- The version of the file format that is understood. -/
def currentVersion : UInt32 := 1

/-- A configuration without tables. -/
def empty : Configuration := ⟨currentVersion, .default, .empty⟩

end Configuration

end ShapedQuery
