import SymbolicTypes.Proofs.Codebase.LastFiling
import SymbolicTypes.Proofs.Snapshot.Format
import SymbolicTypes.Proofs.Snapshot.Yields
import SymbolicTypes.Proofs.SymType.RoundTrip

namespace SymbolicTypes.Snapshot

variable {α β ρ : Type}

open SymType (DecodeError bind_eq_ok_iff)

/-- The error of the first text that stands for no type. -/
def firstFault (texts : List String) : Option DecodeError :=
  texts.findSome? fun s => match SymType.ofText s with
    | .ok _ => none
    | .error e => some e

/-- Reading fails as the first of the texts does that stands for no type, and where there is none it
succeeds with the property. -/
def Strict (texts : List String) (result : Except ReadError α) (P : α → Prop) : Prop :=
  match firstFault texts with
  | none => ∃ a, result = .ok a ∧ P a
  | some e => result = .error (.badType e)

section

variable {texts texts' : List String} {result : Except ReadError α} {P Q : α → Prop}

theorem firstFault_append :
    firstFault (texts ++ texts') = (firstFault texts).or (firstFault texts') :=
  List.findSome?_append

theorem strict_ok {a : α} (h : P a) : Strict [] (.ok a) P := ⟨a, rfl, h⟩

theorem Strict.imp_of_eq_ok (h : Strict texts result P) (hPQ : ∀ a, result = .ok a → P a → Q a) :
    Strict texts result Q := by
  unfold Strict at h ⊢
  cases hfault : firstFault texts with
  | some e =>
    rw [hfault] at h
    exact h
  | none =>
    rw [hfault] at h
    obtain ⟨a, ha, hP⟩ := h
    exact ⟨a, ha, hPQ a ha hP⟩

theorem Strict.imp (h : Strict texts result P) (hPQ : ∀ a, P a → Q a) : Strict texts result Q :=
  h.imp_of_eq_ok fun a _ => hPQ a

theorem Strict.and_eq_ok (h : Strict texts result P) :
    Strict texts result fun a => P a ∧ result = .ok a :=
  h.imp_of_eq_ok fun _ ha hP => ⟨hP, ha⟩

theorem Strict.bind {f : α → Except ReadError β} {R : β → Prop} (h : Strict texts result P)
    (hf : ∀ a, P a → Strict texts' (f a) R) : Strict (texts ++ texts') (result >>= f) R := by
  unfold Strict at h ⊢
  rw [firstFault_append]
  cases hfault : firstFault texts with
  | some e =>
    rw [hfault] at h
    rw [h]
    rfl
  | none =>
    rw [hfault] at h
    obtain ⟨a, rfl, ha⟩ := h
    exact hf a ha

theorem Strict.map {f : α → β} {R : β → Prop} (h : Strict texts result P)
    (hf : ∀ a, P a → R (f a)) : Strict texts (result.map f) R := by
  have hbind : result.map f = result >>= fun a => .ok (f a) := by cases result <;> rfl
  rw [hbind, ← List.append_nil texts]
  exact h.bind fun a ha => strict_ok (hf a ha)

theorem firstFault_eq_none_iff :
    firstFault texts = none ↔ ∀ s ∈ texts, ∃ t, SymType.ofText s = .ok t := by
  rw [firstFault, List.findSome?_eq_none_iff]
  refine forall₂_congr fun s _ => ?_
  cases SymType.ofText s <;> simp

theorem firstFault_eq_some {before after : List String} {s : String} {e : DecodeError}
    (hbefore : ∀ s ∈ before, ∃ t, SymType.ofText s = .ok t) (he : SymType.ofText s = .error e) :
    firstFault (before ++ s :: after) = some e := by
  rw [firstFault_append, firstFault_eq_none_iff.mpr hbefore, Option.none_or, firstFault,
    List.findSome?_cons, he]

theorem Strict.eq_error (h : Strict texts result P) {e : DecodeError}
    (he : firstFault texts = some e) : result = .error (.badType e) := by
  rw [Strict, he] at h
  exact h

theorem Strict.exists_eq_ok (h : Strict texts result P) (hnone : firstFault texts = none) :
    ∃ a, result = .ok a ∧ P a := by
  rw [Strict, hnone] at h
  exact h

theorem Strict.eq_none_of_eq_ok (h : Strict texts result P) {a : α} (ha : result = .ok a) :
    firstFault texts = none := by
  cases hfault : firstFault texts with
  | none => rfl
  | some e => cases ha.symm.trans (h.eq_error hfault)

end

def Follows (read : Json → Except ReadError α) (f : Format α) : Prop :=
  ∀ j, f.fits j → Strict (f.typeTexts j) (read j) (f.holds j)

theorem follows_text : Follows readString Format.text := by
  rintro _ ⟨s, rfl⟩
  exact strict_ok rfl

theorem follows_textOrNull : Follows (readOptional readString) Format.textOrNull := by
  rintro _ ⟨o, rfl⟩
  cases o with
  | none => exact strict_ok rfl
  | some s => exact strict_ok rfl

theorem follows_flag : Follows readBool Format.flag := by
  rintro _ ⟨b, rfl⟩
  exact strict_ok rfl

theorem strict_mapM {ι : Type} {read : ι → Except ReadError α} {typeTexts : ι → List String}
    {holds : ι → α → Prop} {items : List ι}
    (h : ∀ i ∈ items, Strict (typeTexts i) (read i) (holds i)) :
    Strict (items.flatMap typeTexts) (items.mapM read) (List.Forall₂ holds items) := by
  induction items with
  | nil => exact strict_ok .nil
  | cons i items ih =>
    rw [List.flatMap_cons, List.mapM_cons]
    apply (h i List.mem_cons_self).bind
    intro a ha
    have hrest := ih fun k hk => h k (List.mem_cons_of_mem i hk)
    exact hrest.map fun _ => List.Forall₂.cons ha

theorem readList_ofList {read : Json → Except ReadError α} {items : List Json} :
    readList read (Json.ofList items) = items.mapM read := by
  change (do closing true (← items.mapM read)) = _
  cases items.mapM read <;> rfl

theorem readMap_ofFields {read : Json → Except ReadError α} {members : List (String × Json)} :
    readMap read (Json.ofFields members) =
      (Json.ofFields members).members.mapM (readEntry read) := by
  change (do closing true (← (Json.ofFields members).members.mapM (readEntry read))) = _
  cases (Json.ofFields members).members.mapM (readEntry read) <;> rfl

theorem Follows.list {read : Json → Except ReadError α} {f : Format α} (h : Follows read f) :
    Follows (readList read) f.list := by
  rintro _ ⟨items, rfl, hitems⟩
  rw [readList_ofList]
  exact strict_mapM fun i hi => h i (hitems i hi)

theorem strict_readType (s : String) :
    Strict [s] (readType (Json.ofString s)) fun t => SymType.ofText s = .ok t := by
  have hread : readType (Json.ofString s) =
      match SymType.ofText s with
      | .ok t => .ok t
      | .error e => .error (.badType e) := rfl
  rw [Strict, firstFault, hread, List.findSome?_cons, List.findSome?_nil]
  cases h : SymType.ofText s with
  | ok t => exact ⟨t, rfl, rfl⟩
  | error e => rfl

theorem isEncodable_of_ofText {s : String} {t : SymType} (h : SymType.ofText s = .ok t) :
    t.isEncodable = true :=
  (SymType.ofText_text_eq_ok_iff.mp (SymType.ofText_text_of_ofText h)).1

theorem mem_iff_of_forall₂ {texts : List String} {l : List SymType}
    (h : List.Forall₂ (fun s t => SymType.ofText s = .ok t) texts l) {t : SymType} :
    t ∈ l ↔ ∃ s ∈ texts, SymType.ofText s = .ok t := by
  induction h with
  | nil => simp
  | @cons s u texts l hs _ ih =>
    rw [List.mem_cons, List.exists_mem_cons_iff, ih, hs, Except.ok.injEq, eq_comm]

theorem follows_union : Follows readUnion Format.union := by
  rintro _ ⟨texts, rfl⟩
  have hlist : Strict texts ((texts.map Json.ofString).mapM readType)
      (List.Forall₂ (fun s t => SymType.ofText s = .ok t) texts) := by
    have h : Strict (texts.flatMap fun s => [s]) (texts.mapM fun s => readType (Json.ofString s))
        (List.Forall₂ (fun s t => SymType.ofText s = .ok t) texts) :=
      strict_mapM fun s _ => strict_readType s
    rw [List.flatMap_singleton'] at h
    rw [List.mapM_map]
    exact h
  have htexts : Format.union.typeTexts (Json.ofList (texts.map Json.ofString)) = texts := by
    change (texts.map Json.ofString).filterMap Json.text? = texts
    rw [List.filterMap_map]
    exact List.filterMap_some
  rw [htexts, readUnion, readList_ofList]
  refine hlist.map fun l hl t => ?_
  change _ ↔ ∃ s ∈ Format.union.typeTexts (Json.ofList (texts.map Json.ofString)), _
  rw [htexts, TypeUnion.mem_ofList, mem_iff_of_forall₂ hl]
  refine and_iff_left_of_imp ?_
  rintro ⟨s, -, hs⟩
  exact isEncodable_of_ofText hs

theorem rel_lookup {f : Format α} {members : List (Option String × Json)} {l : List (String × α)}
    (h : List.Forall₂ (fun m e => m.1 = some e.1 ∧ f.holds m.2 e.2) members l) (name : String) :
    Option.Rel f.holds (members.lookup (some name)) (l.lookup name) := by
  induction h with
  | nil => exact .none
  | @cons m e members l hm _ ih =>
    obtain ⟨key, j⟩ := m
    obtain ⟨rfl, hj⟩ := hm
    rw [List.lookup_cons, List.lookup_cons, Option.some_beq_some]
    split
    · exact .some hj
    · exact ih

theorem Follows.byName {read : Json → Except ReadError α} {f : Format α} (h : Follows read f)
    {j : Json} (hj : f.byName.fits j) :
    Strict (f.byName.typeTexts j) (readMap read j)
      fun l => f.byName.holds j (SortedMap.ofList l) := by
  obtain ⟨members, rfl, hmembers⟩ := hj
  rw [readMap_ofFields]
  have hentries : Strict (f.byName.typeTexts (Json.ofFields members))
      ((Json.ofFields members).members.mapM (readEntry read))
      (List.Forall₂ (fun m e => m.1 = some e.1 ∧ f.holds m.2 e.2)
        (Json.ofFields members).members) := by
    apply strict_mapM
    intro m hm
    obtain ⟨⟨key, j⟩, hin, rfl⟩ := List.mem_map.mp hm
    exact (h j (hmembers _ hin)).map fun a ha => ⟨rfl, ha⟩
  apply hentries.imp
  intro l hl name
  rw [SortedMap.get?_ofList]
  exact rel_lookup (List.forall₂_reverse_iff.mpr hl) name

end SymbolicTypes.Snapshot
