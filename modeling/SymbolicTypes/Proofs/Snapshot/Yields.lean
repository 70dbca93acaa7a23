import SymbolicTypes.Proofs.Codebase.Filing
import SymbolicTypes.Proofs.Snapshot.Reading

namespace SymbolicTypes.Snapshot

variable {ι α β ρ : Type}

open SymType (bind_eq_ok_iff)

def Yields (read : ι → Except ReadError β) (P : β → Prop) : Prop := ∀ i b, read i = .ok b → P b

theorem eq_of_closing_eq_ok {closed : Bool} {a b : α} (h : closing closed a = .ok b) : a = b := by
  cases closed with
  | true => exact Except.ok.inj h
  | false => exact absurd h (by simp [closing])

theorem Yields.mapM {read : ι → Except ReadError β} {P : β → Prop} (h : Yields read P) :
    Yields (List.mapM read) fun bs => ∀ b ∈ bs, P b := by
  intro l
  induction l with
  | nil =>
    rintro bs ⟨⟩ b hb
    exact absurd hb List.not_mem_nil
  | cons i l ih =>
    intro bs hbs
    simp only [List.mapM_cons, bind_eq_ok_iff] at hbs
    obtain ⟨b, hb, rest, hrest, ⟨⟩⟩ := hbs
    exact List.forall_mem_cons.mpr ⟨h i b hb, ih rest hrest⟩

theorem Yields.list {read : Json → Except ReadError β} {P : β → Prop} (h : Yields read P) :
    Yields (readList read) fun bs => ∀ b ∈ bs, P b := by
  intro j bs hbs
  unfold readList at hbs
  split at hbs
  · obtain ⟨bs', hread, hclosing⟩ := bind_eq_ok_iff.mp hbs
    obtain rfl := eq_of_closing_eq_ok hclosing
    exact h.mapM _ _ hread
  · exact absurd hbs (by simp)

theorem Yields.entry {read : Json → Except ReadError β} {P : β → Prop} (h : Yields read P) :
    Yields (readEntry read) fun e => P e.2 := by
  rintro ⟨key | key, j⟩ e he
  · exact absurd he (by simp [readEntry])
  · simp only [readEntry, bind_eq_ok_iff] at he
    obtain ⟨b, hb, ⟨⟩⟩ := he
    exact h j b hb

theorem Yields.map {read : Json → Except ReadError β} {P : β → Prop} (h : Yields read P) :
    Yields (readMap read) fun l => ∀ e ∈ l, P e.2 := by
  intro j l hl
  unfold readMap at hl
  split at hl
  · obtain ⟨l', hread, hclosing⟩ := bind_eq_ok_iff.mp hl
    obtain rfl := eq_of_closing_eq_ok hclosing
    exact h.entry.mapM _ _ hread
  · exact absurd hl (by simp)

def Field.Keeps (f : Field ρ) (P : ρ → Prop) : Prop := ∀ j r v, P r → f.read j r = .ok v → P v

theorem keeps_field {key : String} {read : Json → Except ReadError α} {put : ρ → α → ρ}
    {P : ρ → Prop} {Q : α → Prop} (h : Yields read Q) (hput : ∀ r a, P r → Q a → P (put r a)) :
    (field key read put).Keeps P := by
  intro j r v hr hv
  simp only [field] at hv
  cases hread : read j with
  | error e => simp [hread, Except.map] at hv
  | ok a =>
    rw [hread] at hv
    cases hv
    exact hput r a hr (h j a hread)

theorem keeps_other {key : String} {read : Json → Except ReadError α} {put : ρ → α → ρ}
    {P : ρ → Prop} (hput : ∀ r a, P r → P (put r a)) : (field key read put).Keeps P :=
  keeps_field (Q := fun _ => True) (fun _ _ _ => trivial) fun r a hr _ => hput r a hr

theorem keeps_nameField {put : ρ → String → ρ} {P : ρ → Prop}
    (hput : ∀ r name, P r → P (put r name)) : (nameField put).Keeps P :=
  show (field "name" readString put).Keeps P from keeps_other hput

namespace Schema

variable {s : Schema ρ} {P : ρ → Prop}

theorem readMembers_keeps (hfields : ∀ f ∈ s.fields, f.Keeps P) {closed : Bool}
    {members : List (Option String × Json)} {seen : List String} {r v : ρ} (hr : P r)
    (h : s.readMembers closed members seen r = .ok v) : P v := by
  induction members generalizing seen r with
  | nil =>
    obtain ⟨_, -, h⟩ := bind_eq_ok_iff.mp h
    split at h
    · exact absurd h (by simp)
    · cases h
      exact hr
  | cons m members ih =>
    obtain ⟨key | key, j⟩ := m
    · exact absurd h (by simp [readMembers])
    rw [readMembers] at h
    split at h
    · next f hf =>
      split at h
      · exact absurd h (by simp)
      · obtain ⟨r', hread, h⟩ := bind_eq_ok_iff.mp h
        exact ih (hfields f (List.mem_of_find?_eq_some hf) j r r' hr hread) h
    · split at h
      · exact absurd h (by simp)
      split at h
      · exact ih hr h
      · exact absurd h (by simp)

theorem readFields_keeps {closed : Bool} {fields : List (Field ρ)}
    (hfields : ∀ f ∈ fields, f.Keeps P) {items : List Json} {n : Nat} {r v : ρ} (hr : P r)
    (h : s.readFields closed fields items n r = .ok v) : P v := by
  induction fields generalizing items n r with
  | nil =>
    cases items with
    | nil => exact eq_of_closing_eq_ok h ▸ hr
    | cons j items => exact absurd h (by simp [readFields])
  | cons f fields ih =>
    obtain ⟨hf, hfields⟩ := List.forall_mem_cons.mp hfields
    cases items with
    | nil =>
      obtain ⟨_, -, h⟩ := bind_eq_ok_iff.mp h
      split at h
      · exact absurd h (by simp)
      · exact ih hfields hr h
    | cons j items =>
      obtain ⟨r', hread, h⟩ := bind_eq_ok_iff.mp h
      exact ih hfields (hf j r r' hr hread) h

/-- In whatever form and order the fields stand, a record keeps what all its fields keep. -/
theorem read_yields (hfields : ∀ f ∈ s.fields, f.Keeps P) (hblank : P s.blank) :
    Yields s.read P := by
  intro j v h
  unfold read at h
  split at h
  · exact readMembers_keeps hfields hblank h
  · exact readFields_keeps hfields hblank h
  · exact absurd h (by simp)

end Schema

variable {P : TypeUnion → Prop}

theorem yields_typedName (h : Yields readUnion P) (hempty : P ∅) (label : String) :
    Yields (typedNameSchema label).read fun n => P n.type := by
  refine Schema.read_yields ?_ hempty
  simp only [typedNameSchema, List.forall_mem_cons]
  exact ⟨keeps_nameField fun _ _ hr => hr, keeps_field h fun _ _ _ ha => ha, by simp⟩

theorem yields_function (h : Yields readUnion P) (hempty : P ∅) :
    Yields functionSchema.read fun d => ∀ u ∈ d.unions, P u := by
  simp only [FunctionDecl.forall_unions]
  refine Schema.read_yields ?_ ⟨by simp [functionSchema], hempty⟩
  simp only [functionSchema, List.forall_mem_cons]
  exact ⟨keeps_nameField fun _ _ hr => hr,
    keeps_field (yields_typedName h hempty _).list fun _ _ hr ha => ⟨ha, hr.2⟩,
    keeps_field h fun _ _ hr ha => ⟨hr.1, ha⟩, by simp⟩

theorem yields_class (h : Yields readUnion P) (hempty : P ∅) :
    Yields classSchema.read fun c => ∀ u ∈ c.unions, P u := by
  simp only [ClassDecl.forall_unions]
  refine Schema.read_yields ?_ (by simp [classSchema])
  simp only [classSchema, List.forall_mem_cons]
  exact ⟨keeps_nameField fun _ _ hr => hr, keeps_other fun _ _ hr => hr,
    keeps_other fun _ _ hr => hr, keeps_other fun _ _ hr => hr, keeps_other fun _ _ hr => hr,
    keeps_field (yields_function h hempty).list fun _ _ hr ha => ⟨ha, hr.2⟩,
    keeps_field (yields_typedName h hempty _).list fun _ _ hr ha => ⟨hr.1, ha, hr.2.2⟩,
    keeps_field (yields_typedName h hempty _).list fun _ _ hr ha => ⟨hr.1, hr.2.1, ha⟩, by simp⟩

theorem yields_snapshot (h : Yields readUnion P) (hempty : P ∅) :
    Yields schema.read fun s => ∀ u ∈ s.unions, P u := by
  simp only [forall_unions]
  refine Schema.read_yields ?_ ?_
  · simp only [schema, List.forall_mem_cons]
    exact ⟨keeps_field (yields_class h hempty).list fun _ _ hr ha => ⟨ha, hr.2⟩,
      keeps_field (yields_class h hempty).list fun _ _ hr ha => ⟨hr.1, ha, hr.2.2⟩,
      keeps_field (yields_function h hempty).list fun _ _ hr ha => ⟨hr.1, hr.2.1, ha, hr.2.2.2⟩,
      keeps_field h.map fun _ _ hr ha =>
        ⟨hr.1, hr.2.1, hr.2.2.1, SortedMap.forall_values_ofList ha, hr.2.2.2.2⟩,
      keeps_field (yields_typedName h hempty _).list fun _ _ hr ha =>
        ⟨hr.1, hr.2.1, hr.2.2.1, hr.2.2.2.1, ha⟩,
      keeps_other fun _ _ hr => hr, by simp⟩
  · simp [schema, SortedMap.values_empty]

theorem forall_unions_of_ofText (h : Yields readUnion P) (hempty : P ∅) {text : String}
    {s : Snapshot} (hs : ofText text = .ok s) : ∀ u ∈ s.unions, P u := by
  obtain ⟨v, hread, hclosing⟩ := bind_eq_ok_iff.mp hs
  obtain rfl := eq_of_closing_eq_ok hclosing
  exact yields_snapshot h hempty _ _ hread

end SymbolicTypes.Snapshot
