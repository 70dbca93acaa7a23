import Mathlib.Data.List.Forall2
import SymbolicTypes.Codebase
import SymbolicTypes.Json.Basic
import SymbolicTypes.SymType.Decode

namespace SymbolicTypes

namespace Json

def items : Json → List Json
  | array items _ => items
  | _ => []

def members : Json → List (Option String × Json)
  | object members _ => members
  | _ => []

def text? : Json → Option String
  | string s => s
  | _ => none

end Json

namespace Snapshot

structure Format (α : Type) where
  /-- The values that are of the right kind throughout, whatever the texts in them. -/
  fits : Json → Prop
  /-- The texts that stand for types, in the order of the document. -/
  typeTexts : Json → List String
  holds : Json → α → Prop

variable {α ρ : Type}

namespace Format

def text : Format String where
  fits j := ∃ s, j = Json.ofString s
  typeTexts _ := []
  holds j s := j = Json.ofString s

def textOrNull : Format (Option String) where
  fits j := ∃ o : Option String, j = (o.map Json.ofString).getD .null
  typeTexts _ := []
  holds j o := j = (o.map Json.ofString).getD .null

def flag : Format Bool where
  fits j := ∃ b, j = .bool b
  typeTexts _ := []
  holds j b := j = .bool b

def list (f : Format α) : Format (List α) where
  fits j := ∃ items, j = Json.ofList items ∧ ∀ i ∈ items, f.fits i
  typeTexts j := j.items.flatMap f.typeTexts
  holds j l := List.Forall₂ f.holds j.items l

def union : Format TypeUnion where
  fits j := ∃ texts : List String, j = Json.ofList (texts.map Json.ofString)
  typeTexts j := j.items.filterMap Json.text?
  holds j u := ∀ t, t ∈ u ↔ ∃ s ∈ j.items.filterMap Json.text?, SymType.ofText s = .ok t

/-- Values by names, of which the last of each name counts. -/
def byName (f : Format α) : Format (SortedMap String α) where
  fits j := ∃ members, j = Json.ofFields members ∧ ∀ m ∈ members, f.fits m.2
  typeTexts j := j.members.flatMap fun m => f.typeTexts m.2
  holds j m := ∀ name, Option.Rel f.holds (j.members.reverse.lookup (some name)) (m.get? name)

end Format

structure Part (ρ : Type) where
  key : String
  fits : Json → Prop
  typeTexts : Json → List String
  holds : Json → ρ → Prop
  /-- What holds of a record without the field, which may then be left out. -/
  absent : Option (ρ → Prop)

namespace Part

def stored (key : String) (f : Format α) (get : ρ → α) (blank : Option α) : Part ρ where
  key := key
  fits := f.fits
  typeTexts := f.typeTexts
  holds j r := f.holds j (get r)
  absent := blank.map fun a r => get r = a

def required (key : String) (f : Format α) (get : ρ → α) : Part ρ := stored key f get none

def optional (key : String) (f : Format α) (get : ρ → α) (blank : α) : Part ρ :=
  stored key f get (some blank)

def isIn (p : Part ρ) (r : ρ) : Option Json → Prop
  | some j => p.holds j r
  | none => ∃ P ∈ p.absent, P r

end Part

namespace Format

/-- A record as an object of its fields in any order, each once at most. Where other fields may stand
they say nothing. -/
def record (strict : Bool) (parts : List (Part ρ)) : Format ρ where
  fits j := ∃ members, j = Json.ofFields members ∧ (members.map Prod.fst).Nodup ∧
    (∀ m ∈ members, (∃ p ∈ parts, p.key = m.1 ∧ p.fits m.2) ∨
      strict = false ∧ m.1 ∉ parts.map Part.key ∧ m.2.isWhole = true) ∧
    ∀ p ∈ parts, p.absent = none → p.key ∈ members.map Prod.fst
  typeTexts j := j.members.flatMap fun m =>
    (parts.find? fun p => some p.key == m.1).elim [] fun p => p.typeTexts m.2
  holds j r := ∀ p ∈ parts, p.isIn r (j.members.lookup (some p.key))

open SymbolicTypes.Snapshot.Part

def typedName : Format TypedName := record false
  [required "name" text TypedName.name,
   optional "type" union TypedName.type ∅]

def function : Format FunctionDecl := record false
  [required "name" text FunctionDecl.name,
   optional "parameters" typedName.list FunctionDecl.parameters [],
   optional "return_type" union FunctionDecl.returnType ∅]

def classLike : Format ClassDecl := record false
  [required "name" text ClassDecl.name,
   optional "parent_class" textOrNull ClassDecl.parent none,
   optional "used_traits" text.list ClassDecl.traits [],
   optional "interfaces" text.list ClassDecl.interfaces [],
   optional "parent_interfaces" text.list ClassDecl.parentInterfaces [],
   optional "methods" function.list ClassDecl.methods [],
   optional "properties" typedName.list ClassDecl.properties [],
   optional "constants" typedName.list ClassDecl.constants []]

def snapshot : Format Snapshot := record true
  [optional "classes" classLike.list Snapshot.classes [],
   optional "traits" classLike.list Snapshot.traits [],
   optional "functions" function.list Snapshot.functions [],
   optional "global_vars" union.byName Snapshot.globals ∅,
   optional "constants" typedName.list Snapshot.constants [],
   optional "indexing_complete" flag Snapshot.complete true]

end Format

end Snapshot

end SymbolicTypes
