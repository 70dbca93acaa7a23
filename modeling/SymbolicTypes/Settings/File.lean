import SymbolicTypes.Settings.Basic
import SymbolicTypes.Toml.Parser

namespace SymbolicTypes

inductive FileContent
  | text (content : String)
  | missing
  | unreadable

open Toml (Value)

/-- A group of settings with the keys it knows, in order. Each key sets its part of the group. -/
structure SettingsGroup (ρ : Type) where
  default : ρ
  keys : List (String × (Value → ρ → Option ρ))

namespace SettingsGroup

variable {α ρ : Type}

/-- Reads a group from a table, where other keys are refused, or from the list of its values. What
is left out keeps its default. -/
def read (g : SettingsGroup ρ) : Value → Option ρ
  | .table _ entries =>
    entries.foldlM (fun r e => (g.keys.lookup e.1).bind fun set => set e.2 r) g.default
  | .array items | .tables items =>
    (g.keys.zip items).foldlM (fun r p => p.1.2 p.2 r) g.default
  | _ => none

def flag (put : ρ → Bool → ρ) : Value → ρ → Option ρ
  | .bool b, r => some (put r b)
  | _, _ => none

def word (put : ρ → String → ρ) : Value → ρ → Option ρ
  | .string s, r => some (put r s)
  | _, _ => none

def group (g : SettingsGroup α) (put : ρ → α → ρ) (v : Value) (r : ρ) : Option ρ :=
  (g.read v).map (put r)

end SettingsGroup

open SettingsGroup

def ResolverSettings.group : SettingsGroup ResolverSettings where
  default := {}
  keys :=
    [("root_namespace_fallback", flag fun r rootFallback => { r with rootFallback }),
     ("magic_getter", word fun r magicGetter => { r with magicGetter })]

def ClassifierSettings.group : SettingsGroup ClassifierSettings where
  default := {}
  keys := [("require_complete_index", flag fun r requireComplete => { r with requireComplete })]

def LogSettings.group : SettingsGroup LogSettings where
  default := {}
  keys := [("filter", word fun r filter => { r with filter })]

namespace Settings

def group : SettingsGroup Settings where
  default := {}
  keys :=
    [("resolver", ResolverSettings.group.group fun r resolver => { r with resolver }),
     ("classifier", ClassifierSettings.group.group fun r classifier => { r with classifier }),
     ("log", LogSettings.group.group fun r log => { r with log })]

def ofText (text : String) : Option Settings := do group.read (.table .header (← Toml.parse text))

inductive LoadError
  | file
  | content
  deriving DecidableEq

def load : FileContent → Except LoadError Settings
  | .text content =>
    match ofText content with
    | some s => .ok s
    | none => .error .content
  | .missing => .ok {}
  | .unreadable => .error .file

end Settings

end SymbolicTypes
