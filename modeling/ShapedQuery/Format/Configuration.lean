import ShapedQuery.Config.Basic
import ShapedQuery.Format.Table

/-! # Configurations in JSON -/

namespace ShapedQuery

namespace Settings

def slots : Fields [UInt32, String] :=
  .field "maxFragmentDepth" Doc.word32 <| .field "currentUserTable" Doc.string .done

def read (d : Doc) : Read Settings := do
  let (_, depth, table, _) ← d.record slots
  return ⟨depth.getD Settings.default.maxFragmentDepth,
    table.getD Settings.default.currentUserTable⟩

def json (s : Settings) : Json :=
  .obj [("maxFragmentDepth", .int s.maxFragmentDepth.toNat),
    ("currentUserTable", .str s.currentUserTable)]

end Settings

namespace Configuration

def slots : Fields [UInt32, Settings, Metadata] :=
  .field "version" Doc.word32 <| .field "settings" Settings.read <|
    .field "metadata" Metadata.read .done

def read (d : Doc) : Read Configuration := do
  let (line, version, settings, metadata, _) ← d.record slots
  return ⟨← required line version, settings.getD .default, metadata.getD .empty⟩

def json (c : Configuration) : Json :=
  .obj [("version", .int c.version.toNat), ("settings", c.settings.json),
    ("metadata", c.metadata.json)]

end Configuration

end ShapedQuery
