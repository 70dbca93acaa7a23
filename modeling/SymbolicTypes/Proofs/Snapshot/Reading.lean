import Mathlib.Data.List.Basic
import SymbolicTypes.Proofs.SymType.Decode
import SymbolicTypes.Snapshot.Reader
import SymbolicTypes.Snapshot.Writer

namespace SymbolicTypes.Snapshot

variable {ι α β ρ : Type}

/-- Of what is written of a value, reading makes its image under `f` if the value has `p`, and
fails otherwise. -/
def Recovers (read : ι → Except ReadError β) (write : α → ι) (p : α → Prop) (f : α → β) : Prop :=
  ∀ a b, read (write a) = .ok b ↔ p a ∧ b = f a

open SymType (bind_eq_ok_iff)

theorem recovers_string : Recovers readString Json.ofString (fun _ => True) id := by
  intro s b
  simp [readString, Json.ofString, eq_comm]

theorem recovers_bool : Recovers readBool Json.bool (fun _ => True) id := by
  intro s b
  simp [readBool, eq_comm]

theorem recovers_optional : Recovers (readOptional readString)
    (fun o => (o.map Json.ofString).getD .null) (fun _ => True) id := by
  intro o b
  cases o with
  | none => simp [readOptional, eq_comm]
  | some s => simp [readOptional, Json.ofString, readString, Except.map, eq_comm]

theorem mapM_eq_ok_iff {read : ι → Except ReadError β} {write : α → ι} {p : α → Prop} {f : α → β}
    (h : Recovers read write p f) {l : List α} {bs : List β} :
    (l.map write).mapM read = .ok bs ↔ (∀ a ∈ l, p a) ∧ bs = l.map f := by
  induction l generalizing bs with
  | nil => simp [pure, Except.pure, eq_comm]
  | cons a l ih =>
    simp only [List.map_cons, List.mapM_cons, bind_eq_ok_iff, h a, ih, List.forall_mem_cons]
    constructor
    · rintro ⟨b, ⟨ha, rfl⟩, bs, ⟨hl, rfl⟩, ⟨⟩⟩
      exact ⟨⟨ha, hl⟩, rfl⟩
    · rintro ⟨⟨ha, hl⟩, rfl⟩
      exact ⟨_, ⟨ha, rfl⟩, _, ⟨hl, rfl⟩, rfl⟩

theorem closing_bind_eq_ok_iff {x : Except ReadError α} {b : α} :
    (do closing true (← x)) = .ok b ↔ x = .ok b := by
  rw [bind_eq_ok_iff]
  simp [closing]

theorem Recovers.list {read : Json → Except ReadError β} {write : α → Json} {p : α → Prop}
    {f : α → β} (h : Recovers read write p f) :
    Recovers (readList read) (fun l => Json.ofList (l.map write)) (fun l => ∀ a ∈ l, p a)
      (List.map f) := by
  intro l b
  exact closing_bind_eq_ok_iff.trans (mapM_eq_ok_iff h)

theorem Recovers.entry {read : Json → Except ReadError β} {write : α → Json} {p : α → Prop}
    {f : α → β} (h : Recovers read write p f) :
    Recovers (readEntry read) (fun e : String × α => (some e.1, write e.2)) (fun e => p e.2)
      (fun e => (e.1, f e.2)) := by
  intro e b
  simp only [readEntry, bind_eq_ok_iff, h e.2]
  constructor
  · rintro ⟨c, ⟨he, rfl⟩, ⟨⟩⟩
    exact ⟨he, rfl⟩
  · rintro ⟨he, rfl⟩
    exact ⟨_, ⟨he, rfl⟩, rfl⟩

theorem Recovers.members {read : Json → Except ReadError β} {write : α → Json} {p : α → Prop}
    {f : α → β} (h : Recovers read write p f) :
    Recovers (readMap read)
      (fun l : List (String × α) => Json.ofFields (l.map fun e => (e.1, write e.2)))
      (fun l => ∀ e ∈ l, p e.2) (List.map fun e => (e.1, f e.2)) := by
  intro l b
  simp only [Json.ofFields, List.map_map]
  exact closing_bind_eq_ok_iff.trans (mapM_eq_ok_iff h.entry)

def readEach : List (Field ρ) → List Json → ρ → Except ReadError ρ
  | f :: fs, j :: js, r => do readEach fs js (← f.read j r)
  | _, _, r => .ok r

theorem find?_key {key : ι → String} {l : List ι} (hnodup : (l.map key).Nodup) {a : ι}
    (ha : a ∈ l) : (l.find? fun b => key b == key a) = some a := by
  induction l with
  | nil => simp at ha
  | cons b l ih =>
    rw [List.map_cons, List.nodup_cons] at hnodup
    obtain rfl | ha := List.mem_cons.mp ha
    · simp
    · have hne : key b ≠ key a := by
        intro h
        exact hnodup.1 (h ▸ List.mem_map_of_mem ha)
      rw [List.find?_cons_of_neg (by simpa using hne)]
      exact ih hnodup.2 ha

theorem readMembers_eq_readEach (s : Schema ρ) (hnodup : (s.fields.map Field.key).Nodup)
    {fs : List (Field ρ)} {js : List Json} {seen : List String} {r : ρ}
    (hlen : js.length = fs.length) (hfs : ∀ f ∈ fs, f ∈ s.fields)
    (hkeys : (fs.map Field.key).Nodup) (hnew : ∀ f ∈ fs, f.key ∉ seen)
    (hold : ∀ f ∈ s.fields, f ∈ fs ∨ f.key ∈ seen) :
    s.readMembers true ((fs.map fun f => some f.key).zip js) seen r = readEach fs js r := by
  induction fs generalizing js seen r with
  | nil =>
    obtain rfl := List.length_eq_zero_iff.mp hlen
    have hmissing : s.missing seen = none := by
      rw [Schema.missing, Option.map_eq_none_iff, List.find?_eq_none]
      intro f hf
      have := (hold f hf).resolve_left (by simp)
      simp [this]
    simp [Schema.readMembers, readEach, closing, hmissing, bind, Except.bind]
  | cons f fs ih =>
    cases js with
    | nil => simp at hlen
    | cons j js =>
      rw [List.map_cons, List.nodup_cons] at hkeys
      have hf := hfs f List.mem_cons_self
      have hseen : seen.contains f.key = false := by simpa using hnew f List.mem_cons_self
      have hrest (r : ρ) : s.readMembers true ((fs.map fun f => some f.key).zip js)
          (f.key :: seen) r = readEach fs js r := by
        refine ih (by simpa using hlen) (fun g hg => hfs g (List.mem_cons_of_mem _ hg)) hkeys.2 ?_ ?_
        · intro g hg hmem
          obtain h | h := List.mem_cons.mp hmem
          · exact hkeys.1 (h ▸ List.mem_map_of_mem hg)
          · exact hnew g (List.mem_cons_of_mem _ hg) h
        · intro g hg
          obtain h | h := hold g hg
          · obtain rfl | h := List.mem_cons.mp h
            · exact .inr List.mem_cons_self
            · exact .inl h
          · exact .inr (List.mem_cons_of_mem _ h)
      simp only [List.map_cons, List.zip_cons_cons, Schema.readMembers, find?_key hnodup hf,
        hseen, hrest, readEach]
      rfl

theorem read_ofFields (s : Schema ρ) (hnodup : (s.fields.map Field.key).Nodup) (js : List Json)
    (hlen : js.length = s.fields.length) :
    s.read (Json.ofFields ((s.fields.map Field.key).zip js)) = readEach s.fields js s.blank := by
  have hmembers : s.readMembers true ((s.fields.map fun f => some f.key).zip js) [] s.blank =
      readEach s.fields js s.blank :=
    readMembers_eq_readEach s hnodup hlen (fun _ h => h) hnodup (by simp) fun _ h => .inl h
  have hzip : ((s.fields.map Field.key).zip js).map (fun m => (some m.1, m.2)) =
      (s.fields.map fun f => some f.key).zip js := by
    have hleft : ((s.fields.map Field.key).map some).zip js =
        ((s.fields.map Field.key).zip js).map (Prod.map some id) := List.zip_map_left
    rw [List.map_map] at hleft
    exact hleft.symm
  rw [← hmembers, ← hzip]
  rfl

theorem readEach_field {read : Json → Except ReadError β} {write : α → Json} {p : α → Prop}
    {f : α → β} (h : Recovers read write p f) {key : String} {put : ρ → β → ρ}
    {fs : List (Field ρ)} {a : α} {js : List Json} {r v : ρ} :
    readEach (field key read put :: fs) (write a :: js) r = .ok v ↔
      p a ∧ readEach fs js (put r (f a)) = .ok v := by
  have hput (q : ρ) : (field key read put).read (write a) r = .ok q ↔ p a ∧ q = put r (f a) := by
    have hmap : (field key read put).read (write a) r = .ok q ↔
        ∃ b, read (write a) = .ok b ∧ put r b = q := by
      simp only [field]
      cases read (write a) <;> simp [Except.map]
    rw [hmap]
    constructor
    · rintro ⟨b, hb, rfl⟩
      obtain ⟨ha, rfl⟩ := (h a b).mp hb
      exact ⟨ha, rfl⟩
    · rintro ⟨ha, rfl⟩
      exact ⟨f a, (h a _).mpr ⟨ha, rfl⟩, rfl⟩
  rw [readEach, bind_eq_ok_iff]
  constructor
  · rintro ⟨q, hq, hv⟩
    obtain ⟨ha, rfl⟩ := (hput q).mp hq
    exact ⟨ha, hv⟩
  · rintro ⟨ha, hv⟩
    exact ⟨_, (hput _).mpr ⟨ha, rfl⟩, hv⟩

theorem readEach_nameField {put : ρ → String → ρ} {fs : List (Field ρ)} {name : String}
    {js : List Json} {r v : ρ} :
    readEach (nameField put :: fs) (Json.ofString name :: js) r = .ok v ↔
      readEach fs js (put r name) = .ok v := by
  have h : readEach (field "name" readString put :: fs) (Json.ofString name :: js) r = .ok v ↔
      True ∧ readEach fs js (put r name) = .ok v := readEach_field recovers_string
  rw [true_and] at h
  exact h

end SymbolicTypes.Snapshot
