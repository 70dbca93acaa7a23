import SymbolicTypes.Resolution.Resolver

namespace SymbolicTypes

namespace FunctionDecl

def unions (f : FunctionDecl) : List TypeUnion := f.returnType :: f.parameters.map TypedName.type

end FunctionDecl

namespace ClassDecl

def unions (c : ClassDecl) : List TypeUnion :=
  c.methods.flatMap FunctionDecl.unions ++ c.properties.map TypedName.type
    ++ c.constants.map TypedName.type

end ClassDecl

namespace Codebase

def unions (b : Codebase) : List TypeUnion :=
  b.classes.values.flatMap ClassDecl.unions ++ b.traits.values.flatMap ClassDecl.unions
    ++ b.functions.values.flatMap FunctionDecl.unions ++ b.globals.values
    ++ b.constants.values.map TypedName.type

def indirections (b : Codebase) : List SymType :=
  b.unions.flatMap fun u => u.toList.flatMap SymType.indirections

def contexts (b : Codebase) : List String :=
  "" :: (b.classes.keys ++ b.traits.keys).flatMap fun k => [k, "\\" ++ k]

end Codebase

namespace Resolver

/-- More declarations than can be followed one inside the other: every further one is reached by
an indirection that has not been expanded for its class before. -/
def bound (r : Resolver) (query : List SymType) : Nat :=
  r.index.codebase.contexts.length
    * (query ++ r.index.codebase.indirections).length + 1

/-- The names a type stands for outside of any class. -/
def resolve (r : Resolver) (t : SymType) : Query Guard TypeNames :=
  r.expand (r.expandUnion (r.bound t.indirections)) "" t

def resolveUnion (r : Resolver) (u : TypeUnion) : Query Guard TypeNames :=
  r.expandUnion (r.bound (u.toList.flatMap SymType.indirections)) "" u

end Resolver

end SymbolicTypes
