import SymbolicTypes.Inheritance.Members
import SymbolicTypes.Resolution.Guard
import SymbolicTypes.Settings.Basic
import SymbolicTypes.TypeNames

namespace SymbolicTypes

structure Resolver where
  index : Index
  settings : ResolverSettings := {}

namespace Resolver

variable {σ α : Type}

/-- Expands a type unless its expansion for the same class has begun already. -/
def once (context : String) (t : SymType) (q : Query Guard TypeNames) : Query Guard TypeNames := do
  let g ← Query.get
  if g.contains context t then
    Query.emit (.expansionRepeats context t)
    return ∅
  else
    Query.set (g.insert context t)
    Query.step (.begun context t)
    q

def gather (f : α → Query σ TypeNames) : List α → Query σ TypeNames
  | [] => return ∅
  | a :: as => do
    let s ← f a
    let t ← gather f as
    return s ∪ t

/-- The function a call means: the one of that name or, where allowed, its namesake in the root
namespace. -/
def callee (r : Resolver) (name : String) : Query σ (Option FunctionDecl) := do
  match ← r.index.function? name with
  | some f => return some f
  | none =>
    if r.settings.rootFallback then
      match Naming.rootFallback name with
      | some root => r.index.function? root
      | none => return none
    else return none

/-- The declared type of a parameter, as the first interface of the host class has it that declares
the method with enough parameters. -/
def parameterType (r : Resolver) (index : UInt64) (host method : String) :
    Query σ (Option TypeUnion) := do
  match ← r.index.class? host with
  | none => return none
  | some c =>
    Query.firstSome (fun i => do
      match ← r.index.class? i with
      | none => return none
      | some d =>
        return (d.method? method).bind fun m => (m.parameters[index.toNat]?).map TypedName.type)
      c.interfaces

def magicGetter (r : Resolver) (host : String) : Query σ (Option (Located FunctionDecl)) :=
  if r.settings.magicGetter.isEmpty then return none
  else r.index.findMethod host r.settings.magicGetter

/-- The type of a property of any of the hosts, beside the names found so far. A host without the
property and with a magic getter decides alone. -/
def fetch (r : Resolver) (declared : TypeUnion → Query Guard TypeNames) (property : String) :
    List String → TypeNames → Query Guard TypeNames
  | [], found => return found
  | host :: hosts, found => do
    match ← r.index.findProperty host property with
    | some p => do
      let names ← declared p.member.type
      fetch r declared property hosts (found ∪ names)
    | none =>
      match ← r.magicGetter host with
      | some getter => declared getter.member.returnType
      | none => fetch r declared property hosts found

def callOn (r : Resolver) (declared : String → TypeUnion → Query Guard TypeNames)
    (method host : String) : Query Guard TypeNames := do
  match ← r.index.findMethod host method with
  | some m => return (← declared host m.member.returnType).bindStatic host
  | none => return ∅

/-- The names a type stands for where `static` is `context`; `declared` expands the types of
declarations. -/
def expand (r : Resolver) (declared : String → TypeUnion → Query Guard TypeNames)
    (context : String) : SymType → Query Guard TypeNames
  | .named n => return SortedSet.ofList [n]
  | .global n => once context (.global n) do
    match ← r.index.global? n with
    | some u => declared context u
    | none => return ∅
  | .constant n => once context (.constant n) do
    match ← r.index.constant? n with
    | some c => declared context c.type
    | none => return ∅
  | .arrayOf t => once context (.arrayOf t) do
    return (← expand r declared context t).wrapArray context
  | .elementOf t => once context (.elementOf t) do
    return (← expand r declared context t).unwrapArray
  | .callOf n => once context (.callOf n) do
    match ← r.callee n with
    | some f => declared context f.returnType
    | none => return ∅
  | .methodOf t m => once context (.methodOf t m) do
    let hosts ← expand r declared context t
    gather (r.callOn declared m) hosts.toList
  | .propertyOf t p => once context (.propertyOf t p) do
    let hosts ← expand r declared context t
    r.fetch (declared context) p hosts.toList ∅
  | .staticMethodOf c m => once context (.staticMethodOf c m) (r.callOn declared m c)
  | .staticPropertyOf c p => once context (.staticPropertyOf c p) do
    match ← r.index.findProperty c p with
    | some found => declared context found.member.type
    | none => return ∅
  | .interfaceParam i c m => once context (.interfaceParam i c m) do
    match ← r.parameterType i c m with
    | some u => declared "" u
    | none => return ∅

/-- Expands every member of a union. The number bounds how many declarations are followed one
inside the other. -/
def expandUnion (r : Resolver) : Nat → String → TypeUnion → Query Guard TypeNames
  | 0, _, _ => return ∅
  | depth + 1, context, u => do
    let names ← gather (fun t => Query.asMember t (r.expand (expandUnion r depth) context t)) u.toList
    return names.settleEmptyArray

end Resolver

end SymbolicTypes
