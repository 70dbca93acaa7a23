import SymbolicTypes.Proofs.Resolution.Growth
import SymbolicTypes.Proofs.Resolution.Meaning
import SymbolicTypes.Proofs.SymType.Parts

namespace SymbolicTypes

open TypeNames

namespace TypeNames

/-- Names told apart by how they begin: an array is of the kind if its elements are. `mixed` is not,
and neither is what begins with a separator. -/
structure IsKind (X : String → Prop) : Prop where
  array : ∀ n, X (arrayOf n) ↔ X n
  mixed : ¬ X mixedName
  separator : ∀ n, ¬ X ("\\" ++ n)

end TypeNames

namespace SymType

def literal? : SymType → Option String
  | named n => some n
  | arrayOf e | elementOf e => e.literal?
  | methodOf r _ | propertyOf r _ => r.literal?
  | _ => none

end SymType

namespace Codebase

variable {b : Codebase} {settings : ResolverSettings} {X : String → Prop} {context n : String}
  {t : SymType}

/-- No literal in the declared types is of the kind, and no class or trait is filed under such a
name. -/
structure Avoids (b : Codebase) (X : String → Prop) : Prop where
  literal : ∀ u ∈ b.unions, ∀ t ∈ u, ∀ n ∈ t.literal?, ¬ X n
  host : ∀ name ∈ b.classes.keys ++ b.traits.keys, ¬ X name

instance (b : Codebase) (X : String → Prop) [DecidablePred X] : Decidable (b.Avoids X) :=
  decidable_of_iff
    ((∀ u ∈ b.unions, ∀ t ∈ u, ∀ n ∈ t.literal?, ¬ X n) ∧
      ∀ name ∈ b.classes.keys ++ b.traits.keys, ¬ X name)
    ⟨fun ⟨literal, host⟩ => ⟨literal, host⟩, fun h => ⟨h.literal, h.host⟩⟩

/-- Some array, in the query or in a declared type, is over what may stand for `static` outside of any
class. -/
def WrapsUnbound (b : Codebase) (settings : ResolverSettings) (query : List SymType) : Prop :=
  ∃ e, (.arrayOf e ∈ query ∨ .arrayOf e ∈ b.indirections) ∧ b.Means settings "" e staticName

def DeclaresEmptyArray (b : Codebase) (settings : ResolverSettings) : Prop :=
  ∃ u ∈ b.unions, ∃ e ∈ u, ∃ context, b.Means settings context e emptyArrayName

/-- The two ways to a name that is neither written anywhere nor the name of a class: to wrap `static`
where it is no class, and to settle an array of which no element was seen. -/
def Forms (b : Codebase) (settings : ResolverSettings) (X : String → Prop)
    (query : List SymType) : Prop :=
  X "" ∧ b.WrapsUnbound settings query ∨ X arrayName ∧ b.DeclaresEmptyArray settings

theorem Forms.mono {query query' : List SymType} (h : b.Forms settings X query)
    (hquery : ∀ x ∈ query, x ∈ query' ∨ x ∈ b.indirections) : b.Forms settings X query' := by
  obtain ⟨hempty, e, he, hmeans⟩ | h := h
  · exact .inl ⟨hempty, e, he.elim (hquery _) .inr, hmeans⟩
  · exact .inr h

theorem Avoids.not_host (hb : b.Avoids X) (hX : IsKind X) {host name : String}
    {m : Located FunctionDecl} (hm : b.findMethod? host name = some m) : ¬ X host := by
  have hkey := hb.host _ (List.mem_append.mpr (SearchPlan.mem_keys_of_found? hm))
  obtain h | h := eq_normalize_or host
  · rwa [h]
  · rw [h]
    exact hX.separator _

theorem Avoids.forms_of_settled (hb : b.Avoids X) {u : TypeUnion} (hu : u ∈ b.unions) {e : SymType}
    (he : e ∈ u) (hmeans : b.Means settings context e n) {query : List SymType}
    (hforms : X n → (∀ m ∈ e.literal?, ¬ X m) → b.Forms settings X e.indirections)
    (hn : X (settled n)) : b.Forms settings X query := by
  by_cases hempty : n = emptyArrayName
  · rw [settled, if_pos hempty] at hn
    exact .inr ⟨hn, u, hu, e, he, context, hempty ▸ hmeans⟩
  · rw [settled, if_neg hempty] at hn
    exact (hforms hn (hb.literal u hu e he)).mono
      fun x hx => .inr (mem_indirections_of_mem_unions hu he hx)

theorem Avoids.forms_of_forStatic (hb : b.Avoids X) (hX : IsKind X) {host method : String}
    {m : Located FunctionDecl} (hm : b.findMethod? host method = some m) {e : SymType}
    (he : e ∈ m.member.returnType) (hmeans : b.Means settings host e n) {query : List SymType}
    (hforms : X n → (X host → host = "") → (∀ m ∈ e.literal?, ¬ X m) →
      b.Forms settings X e.indirections)
    (hn : X (forStatic host (settled n))) : b.Forms settings X query := by
  have hhost := hb.not_host hX hm
  have hsettled : X (settled n) := by
    rw [forStatic] at hn
    split at hn
    · exact absurd hn hhost
    · exact hn
  exact hb.forms_of_settled (b.declares_unions.of_findMethod? hm) he hmeans
    (fun hn => hforms hn fun h => absurd h hhost) hsettled

theorem Means.forms (hX : IsKind X) (hb : b.Avoids X) (h : b.Means settings context t n) (hn : X n)
    (hcontext : X context → context = "") (ht : ∀ m ∈ t.literal?, ¬ X m) :
    b.Forms settings X t.indirections := by
  have hunions := b.declares_unions
  induction h with
  | named => exact absurd hn (ht _ rfl)
  | @reference context t u e n hu he hmeans ih =>
    have hbase : X (t.base context) → t.base context = "" := by
      obtain h | h := t.base_eq_or_empty context
      · rwa [h]
      · exact fun _ => h
    exact hb.forms_of_settled (hunions.of_target? hu) he hmeans (fun hn => ih hn hbase) hn
  | @arrayOf context e n hmeans ih =>
    rw [hX.array, forStatic] at hn
    split at hn
    · next hstatic =>
      -- the name of a class is of no such kind, so there is no class
      obtain rfl := hcontext hn
      obtain rfl := hstatic
      exact .inl ⟨hn, e, .inl (SymType.mem_indirections_self rfl), hmeans⟩
    · exact (ih hn hcontext ht).mono fun x hx => .inl (SymType.mem_indirections_of_inner? rfl hx)
  | elementOf _ ih =>
    exact (ih ((hX.array _).mpr hn) hcontext ht).mono
      fun x hx => .inl (SymType.mem_indirections_of_inner? rfl hx)
  | elementOf_mixed => exact absurd hn hX.mixed
  | methodOf _ hm he hmeans _ ih => exact hb.forms_of_forStatic hX hm he hmeans ih hn
  | propertyOf _ hp he hmeans _ ih =>
    exact hb.forms_of_settled (hunions.of_findProperty? hp) he hmeans (fun hn => ih hn hcontext) hn
  | getterOf _ _ hm he hmeans _ ih =>
    exact hb.forms_of_settled (hunions.of_magicGetter? hm) he hmeans (fun hn => ih hn hcontext) hn
  | staticMethodOf hm he hmeans ih => exact hb.forms_of_forStatic hX hm he hmeans ih hn

end Codebase

end SymbolicTypes
