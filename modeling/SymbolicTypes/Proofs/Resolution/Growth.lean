import Mathlib.Data.Finset.Prod
import Mathlib.Data.Set.Card
import SymbolicTypes.Proofs.Naming
import SymbolicTypes.Proofs.Inheritance.Termination
import SymbolicTypes.Proofs.Resolution.Declares
import SymbolicTypes.Proofs.Resolution.Guard

namespace SymbolicTypes

namespace Codebase

variable {b : Codebase}

theorem declares_unions (b : Codebase) : b.Declares (· ∈ b.unions) (· ∈ b.unions) := by
  have hclass {u : TypeUnion} {c : ClassDecl} (hc : c ∈ b.classLikes) (hu : u ∈ c.unions) :
      u ∈ b.unions := by
    simp only [unions, List.mem_append, List.mem_flatMap]
    obtain hc | hc := List.mem_append.mp hc
    · exact .inl (.inl (.inl (.inl ⟨c, hc, hu⟩)))
    · exact .inl (.inl (.inl (.inr ⟨c, hc, hu⟩)))
  have hmethod {u : TypeUnion} {c : ClassDecl} {m : FunctionDecl} (hm : m ∈ c.methods)
      (hu : u ∈ m.unions) : u ∈ c.unions := by
    simp only [ClassDecl.unions, List.mem_append, List.mem_flatMap]
    exact .inl (.inl ⟨m, hm, hu⟩)
  constructor
  · intro u hu
    simp only [unions, List.mem_append]
    exact .inl (.inr hu)
  · intro c hc
    simp only [unions, List.mem_append]
    exact .inr (List.mem_map_of_mem hc)
  · intro f hf
    simp only [unions, List.mem_append, List.mem_flatMap]
    exact .inl (.inl (.inr ⟨f, hf, List.mem_cons_self⟩))
  · intro c hc p hp
    refine hclass hc ?_
    simp only [ClassDecl.unions, List.mem_append]
    exact .inl (.inr (List.mem_map_of_mem hp))
  · intro c hc m hm p hp
    exact hclass hc (hmethod hm (List.mem_cons_of_mem _ (List.mem_map_of_mem hp)))
  · intro c hc m hm
    exact hclass hc (hmethod hm List.mem_cons_self)

theorem mem_indirections_of_mem_unions {u : TypeUnion} (hu : u ∈ b.unions) {t x : SymType}
    (ht : t ∈ u) (hx : x ∈ t.indirections) : x ∈ b.indirections :=
  List.mem_flatMap.mpr ⟨u, hu, List.mem_flatMap.mpr ⟨t, ht, hx⟩⟩

theorem eq_normalize_or (name : String) :
    name = Naming.normalize name ∨ name = "\\" ++ Naming.normalize name :=
  Naming.eq_dropLeading_or Naming.separator name

theorem mem_contexts_of_isContext {c : String} (h : b.IsContext c) : c ∈ b.contexts := by
  obtain rfl | hkey := h
  · exact List.mem_cons_self
  · refine List.mem_cons_of_mem _ (List.mem_flatMap.mpr ?_)
    refine ⟨_, List.mem_append.mpr hkey, ?_⟩
    obtain hc | hc := eq_normalize_or c
    · exact List.mem_cons.mpr (.inl hc)
    · exact List.mem_cons_of_mem _ (List.mem_singleton.mpr hc)

theorem finite_isContext (b : Codebase) : {c | b.IsContext c}.Finite :=
  b.contexts.toFinset.finite_toSet.subset fun _ hc =>
    List.mem_toFinset.mpr (mem_contexts_of_isContext hc)

end Codebase

namespace Guard

variable {b : Codebase} {query : List SymType} {start g g' w : Guard} {context : String}
  {t : SymType} {k : Nat}

/-- Nothing has been taken out, and what is new are indirections of the query or of declared types,
each with no class or with a class or trait of the codebase. -/
structure Grows (b : Codebase) (query : List SymType) (g w : Guard) : Prop where
  kept : ∀ p ∈ g, p ∈ w
  added : ∀ p ∈ w, p ∈ g ∨ b.IsContext p.1 ∧ (p.2 ∈ query ∨ p.2 ∈ b.indirections)

theorem Grows.refl (g : Guard) : Grows b query g g := ⟨fun _ => id, fun _ => .inl⟩

theorem Grows.insert (h : Grows b query start g) (hcontext : b.IsContext context)
    (ht : t ∈ query ∨ t ∈ b.indirections) : Grows b query start (g.insert context t) where
  kept p hp := mem_insert.mpr (.inr (h.kept p hp))
  added p hp := by
    obtain rfl | hp := mem_insert.mp hp
    · exact .inr ⟨hcontext, ht⟩
    · exact h.added p hp

theorem Grows.size_le (h : Grows b query g w) :
    w.size ≤ g.size +
      {c | b.IsContext c}.ncard * {x | x ∈ query ∨ x ∈ b.indirections}.ncard := by
  have hfinite : {x | x ∈ query ∨ x ∈ b.indirections}.Finite :=
    (query ++ b.indirections).toFinset.finite_toSet.subset fun x hx =>
      List.mem_toFinset.mpr (List.mem_append.mpr hx)
  have hnew : ↑(w.pairs.toFinset \ g.pairs.toFinset) ⊆
      {c | b.IsContext c} ×ˢ {x | x ∈ query ∨ x ∈ b.indirections} := by
    intro p hp
    obtain ⟨hw, hg⟩ := Finset.mem_sdiff.mp (Finset.mem_coe.mp hp)
    exact (h.added p (List.mem_toFinset.mp hw)).resolve_left fun hin =>
      hg (List.mem_toFinset.mpr hin)
  have hcard : (w.pairs.toFinset \ g.pairs.toFinset).card ≤
      {c | b.IsContext c}.ncard * {x | x ∈ query ∨ x ∈ b.indirections}.ncard := by
    rw [← Set.ncard_prod, ← Set.ncard_coe_finset]
    exact Set.ncard_le_ncard hnew (b.finite_isContext.prod hfinite)
  have hsplit := Finset.card_le_card_sdiff_add_card (s := w.pairs.toFinset) (t := g.pairs.toFinset)
  rw [List.toFinset_card_of_nodup w.nodup, List.toFinset_card_of_nodup g.nodup] at hsplit
  unfold size
  omega

def unbegun (b : Codebase) (query : List SymType) (g : Guard) : Finset (String × SymType) :=
  b.contexts.toFinset ×ˢ (query ++ b.indirections).toFinset \ g.pairs.toFinset

theorem card_unbegun_lt_bound (b : Codebase) (settings : ResolverSettings) (query : List SymType)
    (g : Guard) : (g.unbegun b query).card < (b.resolver settings).bound query := by
  have hcard : (g.unbegun b query).card ≤
      (b.contexts.toFinset ×ˢ (query ++ b.indirections).toFinset).card :=
    Finset.card_le_card Finset.sdiff_subset
  rw [Finset.card_product] at hcard
  exact Nat.lt_succ_of_le (hcard.trans
    (Nat.mul_le_mul (List.toFinset_card_le _) (List.toFinset_card_le _)))

theorem card_unbegun_le (b : Codebase) (query : List SymType) (h : ∀ p ∈ g, p ∈ w) :
    (w.unbegun b query).card ≤ (g.unbegun b query).card := by
  refine Finset.card_le_card (Finset.sdiff_subset_sdiff subset_rfl fun p hp => ?_)
  exact List.mem_toFinset.mpr (h p (List.mem_toFinset.mp hp))

theorem card_unbegun_insert_lt (hcontext : b.IsContext context)
    (ht : t ∈ query ∨ t ∈ b.indirections) (hg : ¬ (context, t) ∈ g) :
    ((g.insert context t).unbegun b query).card < (g.unbegun b query).card := by
  have hpairs : (g.insert context t).pairs.toFinset =
      Insert.insert (context, t) g.pairs.toFinset := by
    have hnew : (context, t) ∉ g.pairs := hg
    rw [Guard.insert, dif_neg hnew, List.toFinset_cons]
  rw [unbegun, hpairs]
  apply card_sdiff_insert_lt
  · exact Finset.mem_product.mpr
      ⟨List.mem_toFinset.mpr (Codebase.mem_contexts_of_isContext hcontext),
        List.mem_toFinset.mpr (List.mem_append.mpr ht)⟩
  · exact fun hin => hg (List.mem_toFinset.mp hin)

/-- One guard that has grown from `start`, with fewer than a number of pairs left to begin. -/
structure Remains (b : Codebase) (query : List SymType) (start : Guard) (k : Nat) (g g' : Guard) :
    Prop where
  same : g = g'
  grows : Grows b query start g
  card : (g.unbegun b query).card < k

theorem Remains.mono {l : Nat} (h : Remains b query start k g g') (hkl : k ≤ l) :
    Remains b query start l g g' :=
  ⟨h.same, h.grows, Nat.lt_of_lt_of_le h.card hkl⟩

end Guard

end SymbolicTypes
