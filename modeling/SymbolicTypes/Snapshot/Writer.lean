import SymbolicTypes.Codebase
import SymbolicTypes.Json.Printer

namespace SymbolicTypes

open Json (ofString ofFields)

def TypeUnion.toJson (u : TypeUnion) : Json := Json.ofList (u.toList.map fun t => ofString t.text)

def TypedName.toJson (n : TypedName) : Json :=
  ofFields [("name", ofString n.name), ("type", n.type.toJson)]

def FunctionDecl.toJson (f : FunctionDecl) : Json :=
  ofFields
    [("name", ofString f.name),
     ("parameters", Json.ofList (f.parameters.map TypedName.toJson)),
     ("return_type", f.returnType.toJson)]

def ClassDecl.toJson (c : ClassDecl) : Json :=
  ofFields
    [("name", ofString c.name),
     ("parent_class", (c.parent.map ofString).getD .null),
     ("used_traits", Json.ofList (c.traits.map ofString)),
     ("interfaces", Json.ofList (c.interfaces.map ofString)),
     ("parent_interfaces", Json.ofList (c.parentInterfaces.map ofString)),
     ("methods", Json.ofList (c.methods.map FunctionDecl.toJson)),
     ("properties", Json.ofList (c.properties.map TypedName.toJson)),
     ("constants", Json.ofList (c.constants.map TypedName.toJson))]

def Snapshot.toJson (s : Snapshot) : Json :=
  ofFields
    [("classes", Json.ofList (s.classes.map ClassDecl.toJson)),
     ("traits", Json.ofList (s.traits.map ClassDecl.toJson)),
     ("functions", Json.ofList (s.functions.map FunctionDecl.toJson)),
     ("global_vars", ofFields (s.globals.entries.map fun e => (e.1, e.2.toJson))),
     ("constants", Json.ofList (s.constants.map TypedName.toJson)),
     ("indexing_complete", .bool s.complete)]

def Snapshot.text (s : Snapshot) : String := s.toJson.render

end SymbolicTypes
