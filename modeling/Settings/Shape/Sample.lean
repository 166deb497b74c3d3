import Settings.Shape.Basic

/-!
# Sample shapes

Records and choices that between them use every kind of shape: records of which every field has a default,
strict and closed ones, and the wrappers, tuples and variants that they are made of.
-/
namespace Settings.Shape.Sample

open Number (IntKind)

def u8 : Shape := .int ⟨false, 8⟩

def u16 : Shape := .int ⟨false, 16⟩

def u32 : Shape := .int ⟨false, 32⟩

def i32 : Shape := .int ⟨true, 32⟩

/-- A record of which every field has a default. -/
def lenient (name : String) (fields : List (String × Shape)) : Shape := .record name false false fields

/-- A record of which every field must be there. -/
def demanding (name : String) (fields : List (String × Shape)) : Shape := .record name true false fields

def nestedBean : Shape := lenient "NestedBean" [("name", .text), ("cost", u32)]

def sampleBean : Shape :=
  lenient "SampleBean"
    [("name", .text), ("cost", u32), ("threshold", .float), ("active", .bool), ("langs", .list .text),
     ("nested", .option nestedBean)]

def endpoint : Shape := lenient "Endpoint" [("endpoint", .text), ("channels", .list .text), ("retries", u32)]

def appSample : Shape :=
  lenient "AppSample"
    [("local", .text), ("url", .text), ("cost", u32), ("date", .option .date), ("time", .option .time),
     ("datetime", .option .dateTime), ("nested", lenient "Nested" [("name", .text), ("threshold", .float)])]

/-- A record that knows all its keys. -/
def sealed : Shape := .record "Sealed" false true [("a", i32), ("b", .option .text)]

def level : Shape := .choice "Level" [("Debug", .nothing), ("Info", .nothing), ("Warn", .nothing)]

/-- A choice with a variant of each kind. -/
def mode : Shape :=
  .choice "Mode"
    [("Fast", .nothing), ("Limited", .content u32), ("Pair", .items [u8, u8]),
     ("Window", .fields [("from", u8), ("to", u8)])]

def wrapper : Shape := .newtype "Wrapper" u32

def pairStruct : Shape := .tupleRecord "PairStruct" [i32, .text]

def unitStruct : Shape := .unitRecord "UnitStruct"

def mixed : Shape :=
  lenient "Mixed"
    [("mode", .option mode), ("grade", .option .char), ("wrap", .option wrapper), ("pair", .option pairStruct),
     ("limits", .map .text u32), ("beans", .list nestedBean), ("at", .option .instant),
     ("deep", .map .text (.map .text (.list i32)))]

def strict : Shape := demanding "Strict" [("id", u32)]

def outer : Shape := demanding "Outer" [("servers", .list (demanding "Server" [("port", u16)]))]

def log : Shape :=
  demanding "Record"
    [("level", level), ("date", .date), ("time", .time), ("at", .dateTime), ("note", .option .text)]

end Settings.Shape.Sample
