import SymbolicTypes.Proofs.Json.RoundTrip
import SymbolicTypes.Proofs.Snapshot.Records
import SymbolicTypes.Proofs.SymType.RoundTrip
import SymbolicTypes.Snapshot.File

namespace SymbolicTypes

theorem TypeUnion.isDocument_toJson (u : TypeUnion) : u.toJson.IsDocument := by
  simp [TypeUnion.toJson]

theorem TypedName.isDocument_toJson (n : TypedName) : n.toJson.IsDocument := by
  simp [TypedName.toJson, TypeUnion.isDocument_toJson]

theorem FunctionDecl.isDocument_toJson (d : FunctionDecl) : d.toJson.IsDocument := by
  simp [FunctionDecl.toJson, TypeUnion.isDocument_toJson, TypedName.isDocument_toJson]

theorem ClassDecl.isDocument_toJson (c : ClassDecl) : c.toJson.IsDocument := by
  have hparent : ((c.parent.map Json.ofString).getD .null).IsDocument := by
    cases c.parent <;> simp [Json.IsDocument]
  simp [ClassDecl.toJson, hparent, FunctionDecl.isDocument_toJson, TypedName.isDocument_toJson]

namespace Snapshot

theorem isDocument_toJson (s : Snapshot) : s.toJson.IsDocument := by
  have hglobals : (Json.ofFields (s.globals.entries.map fun e => (e.1, e.2.toJson))).IsDocument := by
    rw [Json.isDocument_ofFields]
    intro m hm
    obtain ⟨e, -, rfl⟩ := List.mem_map.mp hm
    exact e.2.isDocument_toJson
  simp [toJson, hglobals, ClassDecl.isDocument_toJson, FunctionDecl.isDocument_toJson,
    TypedName.isDocument_toJson, Json.IsDocument]

theorem ofText_text (s : Snapshot) : ofText s.text = schema.read s.toJson := by
  have hparse := Json.parse_render (isDocument_toJson s)
  rw [ofText, text, hparse]
  change (do closing true (← schema.read s.toJson)) = _
  cases schema.read s.toJson <;> rfl

/-- The text of a snapshot can be read as soon as the texts of its types can, and then gives them
as they were read. -/
theorem ofText_text_eq_ok_iff {s v : Snapshot} :
    ofText s.text = .ok v ↔ (∀ u ∈ s.unions, u.IsReadable) ∧ v = s.retype TypeUnion.reread := by
  rw [ofText_text]
  exact recovers_snapshot s v

end Snapshot

namespace TypeUnion

theorem mem_reread {u : TypeUnion} {t : SymType} :
    t ∈ u.reread ↔ (∃ s ∈ u, s.reread = t) ∧ t.isEncodable = true := by
  rw [reread, mem_ofList, List.mem_map]
  rfl

/-- A union comes back unchanged just when each of its members does: members cannot change places,
since what was read from a text is read again from its own. -/
theorem reread_eq_self_iff {u : TypeUnion} (hu : u.IsReadable) :
    u.reread = u ↔ ∀ t ∈ u, t.IsClosed := by
  have hself {t : SymType} (h : SymType.ofText t.text = .ok t) : t.reread = t := by
    rw [SymType.reread, h]
  constructor
  · intro h t ht
    obtain ⟨⟨s, hs, rfl⟩, -⟩ := mem_reread.mp (h ▸ ht)
    obtain ⟨v, hv⟩ := hu s hs
    have hsv : s.reread = v := by rw [SymType.reread, hv]
    rw [hsv]
    exact (SymType.ofText_text_eq_ok_iff.mp (SymType.ofText_text_of_ofText hv)).2
  · intro h
    have hmem (t : SymType) (ht : t ∈ u) : t.reread = t :=
      hself (SymType.ofText_text_eq_ok_iff.mpr ⟨u.encodable t ht, h t ht⟩)
    apply ext
    intro t
    rw [mem_reread]
    constructor
    · rintro ⟨⟨s, hs, rfl⟩, -⟩
      rwa [hmem s hs]
    · intro ht
      exact ⟨⟨t, ht, hmem t ht⟩, u.encodable t ht⟩

end TypeUnion

namespace Codebase

theorem isReadable_ofSnapshot {s : Snapshot} (h : ∀ u ∈ s.unions, u.IsReadable) :
    ∀ u ∈ (ofSnapshot s).unions, u.IsReadable :=
  forall_unions_ofSnapshot (fun _ ht => absurd ht SortedSet.not_mem_empty) h

theorem ofText_toText_eq_ok_iff {b c : Codebase} :
    ofText b.toText = .ok c ↔
      (∀ u ∈ b.unions, u.IsReadable) ∧ c = (ofSnapshot b.snapshot).retype TypeUnion.reread := by
  have hmap : ofText b.toText = .ok c ↔
      ∃ v, Snapshot.ofText b.snapshot.text = .ok v ∧ ofSnapshot v = c := by
    rw [ofText, toText]
    cases Snapshot.ofText b.snapshot.text <;> simp [Except.map]
  rw [hmap, ← ofSnapshot_retype]
  constructor
  · rintro ⟨v, hv, rfl⟩
    obtain ⟨hu, rfl⟩ := Snapshot.ofText_text_eq_ok_iff.mp hv
    exact ⟨hu, rfl⟩
  · rintro ⟨hu, rfl⟩
    exact ⟨_, Snapshot.ofText_text_eq_ok_iff.mpr ⟨hu, rfl⟩, rfl⟩

/-- Storing a codebase and loading it again is the same as filing its snapshot anew just where all
stored types can be read and no name is torn apart in those that are filed in the end. -/
theorem ofText_toText_iff (b : Codebase) :
    (∃ c, ofText b.toText = .ok c ∧ c.snapshot = (ofSnapshot b.snapshot).snapshot) ↔
      (∀ u ∈ b.unions, ∀ t ∈ u, ∃ s, SymType.ofText t.text = .ok s) ∧
        ∀ u ∈ (ofSnapshot b.snapshot).unions, ∀ t ∈ u, t.IsClosed := by
  have hsame (hread : ∀ u ∈ b.unions, u.IsReadable) :
      ((ofSnapshot b.snapshot).retype TypeUnion.reread).snapshot = (ofSnapshot b.snapshot).snapshot ↔
        ∀ u ∈ (ofSnapshot b.snapshot).unions, ∀ t ∈ u, t.IsClosed := by
    have hfiled := isReadable_ofSnapshot (s := b.snapshot) hread
    rw [snapshot_retype, Snapshot.retype_eq_self_iff, unions_snapshot]
    constructor
    · intro h u hu
      exact (TypeUnion.reread_eq_self_iff (hfiled u hu)).mp (h u hu)
    · intro h u hu
      exact (TypeUnion.reread_eq_self_iff (hfiled u hu)).mpr (h u hu)
  constructor
  · rintro ⟨c, hc, hsnapshot⟩
    obtain ⟨hread, rfl⟩ := ofText_toText_eq_ok_iff.mp hc
    exact ⟨hread, (hsame hread).mp hsnapshot⟩
  · rintro ⟨hread, hclosed⟩
    exact ⟨_, ofText_toText_eq_ok_iff.mpr ⟨hread, rfl⟩, (hsame hread).mpr hclosed⟩

def unreadable : Codebase :=
  insertFunction {} { name := "f", returnType := TypeUnion.ofList [.global "a)"] }

theorem ofText_toText_unreadable :
    ofText unreadable.toText = .error (.badType (.malformed "@global(a))" .unbalanced)) := by
  rw [ofText, toText, Snapshot.ofText_text]
  rfl

end Codebase

end SymbolicTypes
