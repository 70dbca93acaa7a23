import SymbolicTypes.Proofs.Snapshot.RoundTrip
import SymbolicTypes.Proofs.Snapshot.Yields

namespace SymbolicTypes

namespace TypeUnion

def IsReread (u : TypeUnion) : Prop := ∀ t ∈ u, SymType.ofText t.text = .ok t

theorem isReread_empty : IsReread ∅ := fun _ ht => absurd ht SortedSet.not_mem_empty

theorem IsReread.isReadable {u : TypeUnion} (h : u.IsReread) : u.IsReadable :=
  fun t ht => ⟨t, h t ht⟩

theorem IsReread.reread_eq_self {u : TypeUnion} (h : u.IsReread) : u.reread = u :=
  (reread_eq_self_iff h.isReadable).mpr fun t ht => (SymType.ofText_text_eq_ok_iff.mp (h t ht)).2

end TypeUnion

namespace Snapshot

open SymType (bind_eq_ok_iff)

theorem yields_readUnion : Yields readUnion TypeUnion.IsReread := by
  have htype : Yields readType fun t => SymType.ofText t.text = .ok t := by
    intro j t ht
    obtain ⟨text, -, ht⟩ := bind_eq_ok_iff.mp ht
    split at ht
    · next s hs =>
      cases ht
      exact SymType.ofText_text_of_ofText hs
    · exact absurd ht (by simp)
  intro j u hu
  obtain ⟨l, hl, ⟨⟩⟩ := bind_eq_ok_iff.mp hu
  exact fun t ht => htype.list j l hl t (TypeUnion.mem_ofList.mp ht).1

end Snapshot

namespace Codebase

theorem ofText_toText {b : Codebase} (hunions : ∀ u ∈ b.unions, u.IsReread)
    (hfiled : ofSnapshot b.snapshot = b) : ofText b.toText = .ok b := by
  have hretype : b.snapshot.retype TypeUnion.reread = b.snapshot :=
    Snapshot.retype_eq_self_iff.mpr fun u hu => (hunions u hu).reread_eq_self
  refine ofText_toText_eq_ok_iff.mpr ⟨fun u hu => (hunions u hu).isReadable, ?_⟩
  rw [← ofSnapshot_retype, hretype, hfiled]

/-- What was loaded from a text can be stored and loaded again and again, with the same snapshot and
the same text, if no key of a global begins with a `$`. -/
theorem ofText_toText_of_ofText {text : String} {b : Codebase} (h : ofText text = .ok b)
    (hkeys : ∀ key ∈ b.globals.keys, key.toList.head? ≠ some '$') :
    ∃ c, ofText b.toText = .ok c ∧ c.snapshot = b.snapshot ∧ c.toText = b.toText := by
  obtain ⟨s, hs, rfl⟩ : ∃ s, Snapshot.ofText text = .ok s ∧ ofSnapshot s = b := by
    rw [ofText] at h
    cases hs : Snapshot.ofText text with
    | error e => simp [hs, Except.map] at h
    | ok s => exact ⟨s, rfl, by simpa [hs, Except.map] using h⟩
  have hunions : ∀ u ∈ (ofSnapshot s).unions, u.IsReread :=
    forall_unions_ofSnapshot TypeUnion.isReread_empty
      (Snapshot.forall_unions_of_ofText Snapshot.yields_readUnion TypeUnion.isReread_empty hs)
  have hfiled : ofSnapshot (ofSnapshot s).snapshot = ofSnapshot s := by
    obtain ⟨l, hl⟩ := exists_filings_ofSnapshot s
    rw [hl] at hkeys ⊢
    rw [(isFiled_ofFilings l).ofSnapshot_snapshot, ofList_map_normalizeVariable hkeys]
  exact ⟨_, ofText_toText hunions hfiled, rfl, rfl⟩

def respelledText : String :=
  "[[[\"B\"], [\"\\\\B\", \"A\"]], [], [[\"f\", [], [\"@base_param(+07,B,m)\"]]], "
    ++ "\x7b\"a\": [\"int\"], \"$a\": []\x7d]"

def respelled : Codebase :=
  ({} : Codebase)
    |>.insertClass { name := "\\B", parent := some "A" }
    |>.insertFunction { name := "f", returnType := TypeUnion.ofList [.interfaceParam 7 "B" "m"] }
    |>.insertGlobal "a" (TypeUnion.ofNames ["int"])
    |>.markComplete

theorem ofText_toText_respelled :
    ofText respelledText = .ok respelled ∧
      (∀ key ∈ respelled.globals.keys, key.toList.head? ≠ some '$') ∧
      ∃ c, ofText respelled.toText = .ok c ∧ c.snapshot = respelled.snapshot ∧
        c.toText = respelled.toText := by
  have h : ofText respelledText = .ok respelled := by decide +kernel
  have hkeys : ∀ key ∈ respelled.globals.keys, key.toList.head? ≠ some '$' := by decide
  exact ⟨h, hkeys, ofText_toText_of_ofText h hkeys⟩

end Codebase

end SymbolicTypes
