import SymbolicTypes.Proofs.Json.RoundTrip
import SymbolicTypes.Proofs.Snapshot.Strictness
import SymbolicTypes.Proofs.Snapshot.Yields

namespace SymbolicTypes

namespace Snapshot

open SymType (bind_eq_ok_iff)

variable {α β ρ : Type}

structure Field.Reads (f : Field ρ) (p : Part ρ) : Prop where
  key : f.key = p.key
  required : f.required = p.absent.isNone
  strict : ∀ j, p.fits j → ∀ r, Strict (p.typeTexts j) (f.read j r) (p.holds j)

structure Field.Spares (f : Field ρ) (p : Part ρ) : Prop where
  holds : ∀ j, f.Keeps (p.holds j)
  absent : ∀ P ∈ p.absent, f.Keeps P

structure Schema.Matches (s : Schema ρ) (parts : List (Part ρ)) : Prop where
  reads : List.Forall₂ Field.Reads s.fields parts
  distinct : (parts.map Part.key).Nodup
  spares : ∀ f ∈ s.fields, ∀ p ∈ parts, f.key ≠ p.key → f.Spares p
  blank : ∀ p ∈ parts, ∀ P ∈ p.absent, P s.blank

namespace Schema.Matches

variable {s : Schema ρ} {parts : List (Part ρ)}

theorem rel_find? (h : s.Matches parts) (key : String) :
    Option.Rel Field.Reads (s.fields.find? fun f => f.key == key)
      (parts.find? fun p => p.key == key) := by
  have hfind (fields : List (Field ρ)) (parts : List (Part ρ))
      (h : List.Forall₂ Field.Reads fields parts) :
      Option.Rel Field.Reads (fields.find? fun f => f.key == key)
        (parts.find? fun p => p.key == key) := by
    induction h with
    | nil => exact .none
    | @cons f p fields parts hread _ ih =>
      rw [List.find?_cons, List.find?_cons, hread.key]
      split
      · exact .some hread
      · exact ih
  exact hfind s.fields parts h.reads

theorem find?_field (h : s.Matches parts) {p : Part ρ} (hp : p ∈ parts) :
    ∃ f ∈ s.fields, (s.fields.find? fun f => f.key == p.key) = some f ∧ f.Reads p := by
  have hrel := h.rel_find? p.key
  rw [find?_key h.distinct hp] at hrel
  obtain ⟨f, hf, hreads⟩ : ∃ f, (s.fields.find? fun f => f.key == p.key) = some f ∧ f.Reads p := by
    generalize (s.fields.find? fun f => f.key == p.key) = o at hrel
    cases hrel with
    | some hreads => exact ⟨_, rfl, hreads⟩
  exact ⟨f, List.mem_of_find?_eq_some hf, hf, hreads⟩

theorem find?_eq_none (h : s.Matches parts) {key : String} (hkey : key ∉ parts.map Part.key) :
    (s.fields.find? fun f => f.key == key) = none := by
  have hrel := h.rel_find? key
  have hparts : (parts.find? fun p => p.key == key) = none := by
    rw [List.find?_eq_none]
    intro p hp hpkey
    exact hkey (eq_of_beq hpkey ▸ List.mem_map_of_mem hp)
  rw [hparts] at hrel
  generalize (s.fields.find? fun f => f.key == key) = o at hrel ⊢
  cases hrel
  rfl

theorem exists_part (h : s.Matches parts) {f : Field ρ} (hf : f ∈ s.fields) :
    ∃ p ∈ parts, f.Reads p := by
  obtain ⟨i, hi, rfl⟩ := List.getElem_of_mem hf
  have hlen := h.reads.length_eq
  exact ⟨parts[i], List.getElem_mem _, h.reads.get hi (hlen ▸ hi)⟩

theorem missing_eq_none (h : s.Matches parts) {seen : List String}
    (hseen : ∀ p ∈ parts, p.absent = none → p.key ∈ seen) : s.missing seen = none := by
  rw [Schema.missing, Option.map_eq_none_iff, List.find?_eq_none]
  intro f hf hmissing
  obtain ⟨p, hp, hreads⟩ := h.exists_part hf
  simp only [hreads.required, hreads.key, Bool.and_eq_true, Option.isNone_iff_eq_none,
    Bool.not_eq_true', List.contains_eq_mem, decide_eq_false_iff_not] at hmissing
  exact hmissing.2 (hseen p hp hmissing.1)

/-- What the members leave a record with that was `r` before them: a part that is among them holds
what they say, and of one that is not among them all is kept that no other field changes. -/
structure Writes (s : Schema ρ) (parts : List (Part ρ)) (members : List (String × Json)) (r v : ρ) :
    Prop where
  holds : ∀ p ∈ parts, ∀ j, (p.key, j) ∈ members → p.holds j v
  keeps : ∀ p ∈ parts, p.key ∉ members.map Prod.fst →
    ∀ P : ρ → Prop, (∀ f ∈ s.fields, f.key ≠ p.key → f.Keeps P) → P r → P v

theorem Writes.cons (h : s.Matches parts) {members : List (String × Json)} {p : Part ρ} {f : Field ρ}
    {j : Json} {r r' v : ρ} (hp : p ∈ parts) (hf : f ∈ s.fields) (hreads : f.Reads p)
    (hnew : p.key ∉ members.map Prod.fst) (hj : p.holds j r') (hread : f.read j r = .ok r')
    (hv : Writes s parts members r' v) : Writes s parts ((p.key, j) :: members) r v where
  holds q hq k hk := by
    obtain heq | hk := List.mem_cons.mp hk
    · obtain ⟨hkey, rfl⟩ := Prod.mk.inj heq
      obtain rfl := List.inj_on_of_nodup_map h.distinct hq hp hkey
      refine hv.keeps q hq hnew _ ?_ hj
      exact fun g hg hne => (h.spares g hg q hq hne).holds k
    · exact hv.holds q hq k hk
  keeps q hq hkeys P hP hr := by
    rw [List.map_cons, List.mem_cons, not_or] at hkeys
    have hr' : P r' := hP f hf (hreads.key ▸ Ne.symm hkeys.1) j r r' hr hread
    exact hv.keeps q hq hkeys.2 P hP hr'

theorem Writes.cons_unknown {members : List (String × Json)} {m : String × Json} {r v : ρ}
    (hm : m.1 ∉ parts.map Part.key) (hv : Writes s parts members r v) :
    Writes s parts (m :: members) r v where
  holds p hp j hj := by
    obtain rfl | hj := List.mem_cons.mp hj
    · exact absurd (List.mem_map_of_mem hp) hm
    · exact hv.holds p hp j hj
  keeps p hp hkeys := hv.keeps p hp fun hmem => hkeys (List.mem_cons_of_mem _ hmem)

def memberTexts (parts : List (Part ρ)) (m : Option String × Json) : List String :=
  (parts.find? fun p => some p.key == m.1).elim [] fun p => p.typeTexts m.2

theorem memberTexts_of_mem (h : s.Matches parts) {p : Part ρ} (hp : p ∈ parts) (j : Json) :
    memberTexts parts (some p.key, j) = p.typeTexts j := by
  simp only [memberTexts, Option.some_beq_some, find?_key h.distinct hp, Option.elim_some]

theorem memberTexts_of_notMem {key : String} (hkey : key ∉ parts.map Part.key) (j : Json) :
    memberTexts parts (some key, j) = [] := by
  have hnone : (parts.find? fun p => some p.key == some key) = none := by
    rw [List.find?_eq_none]
    intro p hp hpkey
    rw [Option.some_beq_some] at hpkey
    exact hkey (eq_of_beq hpkey ▸ List.mem_map_of_mem hp)
  simp only [memberTexts, hnone, Option.elim_none]

theorem strict_readMembers (h : s.Matches parts) {members : List (String × Json)}
    {seen : List String} {r : ρ} (hkeys : (members.map Prod.fst).Nodup)
    (hnew : ∀ m ∈ members, m.1 ∉ seen)
    (hfits : ∀ m ∈ members, (∃ p ∈ parts, p.key = m.1 ∧ p.fits m.2) ∨
      s.strict = false ∧ m.1 ∉ parts.map Part.key ∧ m.2.isWhole = true)
    (hrequired : ∀ p ∈ parts, p.absent = none → p.key ∈ seen ∨ p.key ∈ members.map Prod.fst) :
    Strict ((Json.ofFields members).members.flatMap (memberTexts parts))
      (s.readMembers true (Json.ofFields members).members seen r) (Writes s parts members r) := by
  change Strict ((members.map fun m => (some m.1, m.2)).flatMap _)
    (s.readMembers true (members.map fun m => (some m.1, m.2)) seen r) _
  induction members generalizing seen r with
  | nil =>
    have hmissing := h.missing_eq_none fun p hp habsent =>
      (hrequired p hp habsent).resolve_right List.not_mem_nil
    have hread : s.readMembers true [] seen r = .ok r := by
      rw [Schema.readMembers, hmissing]
      rfl
    rw [List.map_nil, hread]
    exact strict_ok ⟨fun _ _ _ hj => absurd hj List.not_mem_nil, fun _ _ _ _ _ hr => hr⟩
  | cons m members ih =>
    obtain ⟨key, j⟩ := m
    rw [List.map_cons, List.nodup_cons] at hkeys
    rw [List.forall_mem_cons] at hnew hfits
    rw [List.map_cons, List.flatMap_cons, Schema.readMembers]
    obtain ⟨p, hp, rfl, hj⟩ | ⟨hstrict, hunknown, hwhole⟩ := hfits.1
    · obtain ⟨f, hf, hfind, hreads⟩ := h.find?_field hp
      rw [hfind, memberTexts_of_mem h hp]
      simp only [List.contains_eq_mem, hnew.1, decide_false]
      -- That the record came from this field is needed where the other parts are kept.
      apply (hreads.strict j hj r).and_eq_ok.bind
      rintro r' ⟨hr', hread⟩
      apply (ih hkeys.2 _ hfits.2 _).imp
      · exact fun v hv => hv.cons h hp hf hreads hkeys.1 hr' hread
      · intro m hm hmem
        obtain heq | hmem := List.mem_cons.mp hmem
        · have hkey : m.1 ∈ members.map Prod.fst := List.mem_map_of_mem hm
          exact hkeys.1 (heq ▸ hkey)
        · exact hnew.2 m hm hmem
      · intro q hq habsent
        have := hrequired q hq habsent
        simp only [List.map_cons, List.mem_cons] at this ⊢
        tauto
    · rw [h.find?_eq_none hunknown, memberTexts_of_notMem hunknown]
      simp only [hstrict, hwhole, List.nil_append]
      apply (ih hkeys.2 hnew.2 hfits.2 _).imp
      · exact fun v hv => hv.cons_unknown hunknown
      · intro q hq habsent
        refine (hrequired q hq habsent).imp_right fun hmem => ?_
        obtain heq | hmem := List.mem_cons.mp hmem
        · exact absurd (heq ▸ List.mem_map_of_mem hq) hunknown
        · exact hmem

theorem isIn_of_writes (h : s.Matches parts) {members : List (String × Json)} {v : ρ}
    (hrequired : ∀ p ∈ parts, p.absent = none → p.key ∈ members.map Prod.fst)
    (hv : Writes s parts members s.blank v) {p : Part ρ} (hp : p ∈ parts) :
    p.isIn v ((Json.ofFields members).members.lookup (some p.key)) := by
  change p.isIn v ((members.map fun m => (some m.1, m.2)).lookup (some p.key))
  cases hlookup : (members.map fun m => (some m.1, m.2)).lookup (some p.key) with
  | some j =>
    obtain ⟨before, after, hmembers, -⟩ := List.lookup_eq_some_iff.mp hlookup
    have hmem : (some p.key, j) ∈ members.map fun m => (some m.1, m.2) := by simp [hmembers]
    obtain ⟨⟨key, k⟩, hin, hk⟩ := List.mem_map.mp hmem
    cases hk
    exact hv.holds p hp k hin
  | none =>
    have hkey : p.key ∉ members.map Prod.fst := by
      rintro hmem
      obtain ⟨m, hm, hmkey⟩ := List.mem_map.mp hmem
      have hne := List.lookup_eq_none_iff.mp hlookup (some m.1, m.2) (List.mem_map_of_mem hm)
      simp [hmkey] at hne
    cases habsent : p.absent with
    | none => exact absurd (hrequired p hp habsent) hkey
    | some P =>
      have hP : P ∈ p.absent := habsent
      refine ⟨P, hP, hv.keeps p hp hkey P ?_ (h.blank p hp P hP)⟩
      exact fun f hf hne => (h.spares f hf p hp hne).absent P hP

theorem follows (h : s.Matches parts) : Follows s.read (Format.record s.strict parts) := by
  rintro _ ⟨members, rfl, hkeys, hfits, hrequired⟩
  have hread := h.strict_readMembers (r := s.blank) hkeys (fun _ _ => List.not_mem_nil) hfits
    fun p hp habsent => .inr (hrequired p hp habsent)
  exact hread.imp fun v hv p hp => h.isIn_of_writes hrequired hv hp

end Schema.Matches

section

variable {key : String} {read : Json → Except ReadError β} {put : ρ → β → ρ} {f : Format α}
  {get : ρ → α} {blank : α}

theorem reads_field (h : ∀ j, f.fits j → Strict (f.typeTexts j) (read j) fun b =>
      ∀ r, f.holds j (get (put r b))) :
    (field key read put).Reads (.optional key f get blank) where
  key := rfl
  required := rfl
  strict j hj r := (h j hj).map fun _ hb => hb r

theorem reads_nameField {put : ρ → String → ρ} {get : ρ → String}
    (hput : ∀ r name, get (put r name) = name) :
    (nameField put).Reads (.required "name" .text get) where
  key := rfl
  required := rfl
  strict j hj r := (follows_text j hj).map fun name hname =>
    show Format.text.holds j (get (put r name)) from (hput r name).symm ▸ hname

theorem spares {key' : String} {required : Bool} {blank : Option α}
    (hput : ∀ r b, get (put r b) = get r) :
    { field key read put with required }.Spares (.stored key' f get blank) := by
  have hkeeps (P : α → Prop) : (field key read put).Keeps fun r => P (get r) :=
    keeps_other fun r b hr => (hput r b).symm ▸ hr
  refine ⟨fun j => hkeeps (f.holds j), fun P hP => ?_⟩
  obtain ⟨a, -, rfl⟩ := Option.map_eq_some_iff.mp hP
  exact hkeeps (· = a)

theorem Follows.reads {read : Json → Except ReadError α} {put : ρ → α → ρ} (h : Follows read f)
    (hput : ∀ r a, get (put r a) = a) : (field key read put).Reads (.optional key f get blank) :=
  reads_field fun j hj => (h j hj).imp fun a ha r => (hput r a).symm ▸ ha

end

theorem follows_typedName (label : String) :
    Follows (typedNameSchema label).read Format.typedName := by
  refine Schema.Matches.follows ⟨?_, by decide, ?_, ?_⟩
  · exact .cons (reads_nameField fun _ _ => rfl) (.cons (follows_union.reads fun _ _ => rfl) .nil)
  · intro f hf p hp hne
    simp only [typedNameSchema, List.mem_cons, List.not_mem_nil, or_false] at hf hp
    rcases hf with rfl | rfl <;> rcases hp with rfl | rfl
    all_goals first | exact absurd rfl hne | exact spares fun _ _ => rfl
  · simp [typedNameSchema, Part.required, Part.optional, Part.stored]

theorem follows_function : Follows functionSchema.read Format.function := by
  refine Schema.Matches.follows ⟨?_, by decide, ?_, ?_⟩
  · exact .cons (reads_nameField fun _ _ => rfl) <|
      .cons ((follows_typedName _).list.reads fun _ _ => rfl) <|
      .cons (follows_union.reads fun _ _ => rfl) .nil
  · intro f hf p hp hne
    simp only [functionSchema, List.mem_cons, List.not_mem_nil, or_false] at hf hp
    rcases hf with rfl | rfl | rfl <;> rcases hp with rfl | rfl | rfl
    all_goals first | exact absurd rfl hne | exact spares fun _ _ => rfl
  · simp [functionSchema, Part.required, Part.optional, Part.stored]

theorem follows_class : Follows classSchema.read Format.classLike := by
  refine Schema.Matches.follows ⟨?_, by decide, ?_, ?_⟩
  · exact .cons (reads_nameField fun _ _ => rfl) <|
      .cons (follows_textOrNull.reads fun _ _ => rfl) <|
      .cons (follows_text.list.reads fun _ _ => rfl) <|
      .cons (follows_text.list.reads fun _ _ => rfl) <|
      .cons (follows_text.list.reads fun _ _ => rfl) <|
      .cons (follows_function.list.reads fun _ _ => rfl) <|
      .cons ((follows_typedName _).list.reads fun _ _ => rfl) <|
      .cons ((follows_typedName _).list.reads fun _ _ => rfl) .nil
  · intro f hf p hp hne
    simp only [classSchema, List.mem_cons, List.not_mem_nil, or_false] at hf hp
    rcases hf with rfl | rfl | rfl | rfl | rfl | rfl | rfl | rfl <;>
      rcases hp with rfl | rfl | rfl | rfl | rfl | rfl | rfl | rfl
    all_goals first | exact absurd rfl hne | exact spares fun _ _ => rfl
  · simp [classSchema, Part.required, Part.optional, Part.stored]

theorem follows_snapshot : Follows schema.read Format.snapshot := by
  refine Schema.Matches.follows ⟨?_, by decide, ?_, ?_⟩
  · exact .cons (follows_class.list.reads fun _ _ => rfl) <|
      .cons (follows_class.list.reads fun _ _ => rfl) <|
      .cons (follows_function.list.reads fun _ _ => rfl) <|
      .cons (reads_field fun _ hj => (follows_union.byName hj).imp fun _ h _ => h) <|
      .cons ((follows_typedName _).list.reads fun _ _ => rfl) <|
      .cons (follows_flag.reads fun _ _ => rfl) .nil
  · intro f hf p hp hne
    simp only [schema, List.mem_cons, List.not_mem_nil, or_false] at hf hp
    rcases hf with rfl | rfl | rfl | rfl | rfl | rfl <;>
      rcases hp with rfl | rfl | rfl | rfl | rfl | rfl
    all_goals first | exact absurd rfl hne | exact spares fun _ _ => rfl
  · simp [schema, Part.optional, Part.stored]

theorem yields_encodable : Yields readUnion fun u => ∀ t ∈ u, t.isEncodable = true := by
  intro j u hu t ht
  obtain ⟨l, -, ⟨⟩⟩ := bind_eq_ok_iff.mp hu
  exact (TypeUnion.mem_ofList.mp ht).2

theorem strict_ofText {text : String} {j : Json} (hparse : Json.parse text = (j, true))
    (hfits : Format.snapshot.fits j) :
    Strict (Format.snapshot.typeTexts j) (ofText text) (Format.snapshot.holds j) := by
  have hread := follows_snapshot j hfits
  rw [ofText, hparse]
  rw [← List.append_nil (Format.snapshot.typeTexts j)]
  exact hread.bind fun s hs => strict_ok hs

end Snapshot

namespace Codebase

open Snapshot (Format Part Strict firstFault_eq_none_iff firstFault_eq_some)

/-- A stored text that is of the right form but for its types is loaded with all of them or not at
all, and then the first that stands for no type is reported. -/
theorem ofText_of_fits {text : String} {j : Json} (hparse : Json.parse text = (j, true))
    (hfits : Format.snapshot.fits j) :
    ((∃ b, ofText text = .ok b) ↔
        ∀ s ∈ Format.snapshot.typeTexts j, ∃ t, SymType.ofText s = .ok t) ∧
      (∀ b, ofText text = .ok b → ∃ s, Snapshot.ofText text = .ok s ∧ b = ofSnapshot s ∧
        Format.snapshot.holds j s ∧ ∀ u ∈ s.unions, ∀ t ∈ u, t.isEncodable = true) ∧
      ∀ before s after e, Format.snapshot.typeTexts j = before ++ s :: after →
        (∀ r ∈ before, ∃ t, SymType.ofText r = .ok t) → SymType.ofText s = .error e →
          ofText text = .error (.badType e) := by
  have hload : Strict (Format.snapshot.typeTexts j) (ofText text) fun b =>
      ∃ s, Snapshot.ofText text = .ok s ∧ b = ofSnapshot s ∧ Format.snapshot.holds j s ∧
        ∀ u ∈ s.unions, ∀ t ∈ u, t.isEncodable = true := by
    apply (Snapshot.strict_ofText hparse hfits).and_eq_ok.map
    rintro s ⟨hholds, hs⟩
    exact ⟨s, hs, rfl, hholds, Snapshot.forall_unions_of_ofText Snapshot.yields_encodable
      (fun t ht => absurd ht SortedSet.not_mem_empty) hs⟩
  refine ⟨?_, ?_, ?_⟩
  · rw [← firstFault_eq_none_iff]
    constructor
    · rintro ⟨b, hb⟩
      exact hload.eq_none_of_eq_ok hb
    · intro hnone
      obtain ⟨b, hb, -⟩ := hload.exists_eq_ok hnone
      exact ⟨b, hb⟩
  · intro b hb
    obtain ⟨c, hc, hs⟩ := hload.exists_eq_ok (hload.eq_none_of_eq_ok hb)
    cases hb.symm.trans hc
    exact hs
  · intro before s after e htexts hbefore he
    rw [htexts] at hload
    exact hload.eq_error (firstFault_eq_some hbefore he)

def faulty : Json := .ofFields
  [("global_vars", .ofFields [("v", .ofList [.ofString "int", .ofString "@bogus(x)"])]),
   ("functions", .ofList [.ofFields
      [("return_type", .ofList [.ofString "@"]), ("note", .null), ("name", .ofString "f")]])]

theorem fits_faulty : Format.snapshot.fits faulty := by
  have hfunction : Format.function.fits (.ofFields
      [("return_type", .ofList [.ofString "@"]), ("note", .null), ("name", .ofString "f")]) := by
    refine ⟨_, rfl, by decide, ?_, by simp [Part.required, Part.optional, Part.stored]⟩
    simp only [List.forall_mem_cons]
    refine ⟨.inl ⟨_, .tail _ (.tail _ (.head _)), rfl, ["@"], rfl⟩, .inr ⟨trivial, by decide, rfl⟩,
      .inl ⟨_, .head _, rfl, "f", rfl⟩, by simp⟩
  refine ⟨_, rfl, by decide, ?_, by simp [Part.optional, Part.stored]⟩
  simp only [List.forall_mem_cons]
  refine ⟨.inl ⟨_, .tail _ (.tail _ (.tail _ (.head _))), rfl, _, rfl, ?_⟩,
    .inl ⟨_, .tail _ (.tail _ (.head _)), rfl, _, rfl, ?_⟩, by simp⟩
  · simp only [List.forall_mem_singleton]
    exact ⟨["int", "@bogus(x)"], rfl⟩
  · simpa using hfunction

theorem ofText_faulty :
    Json.parse faulty.render = (faulty, true) ∧ Format.snapshot.fits faulty ∧
      Format.snapshot.typeTexts faulty = ["int", "@bogus(x)", "@"] ∧
      ofText faulty.render = .error (.badType (.unknownTag "bogus" "@bogus(x)")) := by
  have hparse : Json.parse faulty.render = (faulty, true) :=
    Json.parse_render (by simp [faulty, Json.IsDocument])
  have hint : SymType.ofText "int" = .ok (.named "int") := rfl
  have hbogus : SymType.ofText "@bogus(x)" = .error (.unknownTag "bogus" "@bogus(x)") := rfl
  have htexts : Format.snapshot.typeTexts faulty = ["int"] ++ "@bogus(x)" :: ["@"] := by decide
  have hload := (ofText_of_fits hparse fits_faulty).2.2
  exact ⟨hparse, fits_faulty, htexts, hload _ _ _ _ htexts (by simp [hint]) hbogus⟩

end Codebase

end SymbolicTypes
