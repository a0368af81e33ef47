import TreeLayout.Data.Decode
import TreeLayout.Settings

/-!
# Layout settings as values

Settings are a record in which every field may be missing and then keeps its default.
-/

namespace TreeLayout.LayoutSettings

/-- The fields of layout settings in order. -/
def fieldNames : List String :=
  ["tab_width", "basic_offset", "wrap", "allow_one_line", "multiple_per_line", "align_declarations"]

/-- The settings that a value holds. -/
def ofValue? (d : Dialect) (v : Value) : Option LayoutSettings := do
  let fields ← v.record? d fieldNames
  let tabWidth ← fieldOr fields "tab_width" default.tabWidth Value.nat?
  let basicOffset ← fieldOr fields "basic_offset" default.basicOffset Value.nat?
  let wrap ← fieldOr fields "wrap" default.wrap
    (decodeTable? d Boundary.all Boundary.name default.wrap (Value.choice? d WrapPolicy.ofSetting?))
  let oneLine ← fieldOr fields "allow_one_line" default.oneLine
    (decodeTable? d BodyKind.all BodyKind.name default.oneLine Value.bool?)
  let shareLine ← fieldOr fields "multiple_per_line" default.shareLine
    (decodeTable? d ElementKind.all ElementKind.name default.shareLine Value.bool?)
  let alignDeclarations ← fieldOr fields "align_declarations" default.alignDeclarations Value.bool?
  return { tabWidth, basicOffset, wrap, oneLine, shareLine, alignDeclarations }

/-- The value that holds settings. -/
def toValue (s : LayoutSettings) : Value :=
  .map
    [("tab_width", .nat s.tabWidth),
     ("basic_offset", .nat s.basicOffset),
     ("wrap", .map (Boundary.all.map fun b => (b.name, .text (s.wrap b).name))),
     ("allow_one_line", .map (BodyKind.all.map fun b => (b.name, .bool (s.oneLine b)))),
     ("multiple_per_line", .map (ElementKind.all.map fun e => (e.name, .bool (s.shareLine e)))),
     ("align_declarations", .bool s.alignDeclarations)]

end TreeLayout.LayoutSettings
