import SymbolicTypes.Proofs.SymType.Decode

namespace SymbolicTypes.SymType

def Tag.takesType : Tag → Bool
  | .arrayOf | .elementOf | .method | .property => true
  | .global | .constant | .call | .staticMethod | .staticProperty | .interfaceParam => false

/-- A text as an indirection: a tag and as many closed words as the tag takes. -/
structure IsCall (text : List Char) (tag : Tag) (args : List (List Char)) : Prop where
  eq_tagged : text = tagged tag args
  length_eq : args.length = tag.arity
  closed : ∀ a ∈ args, Closed a

variable {text : List Char} {tag tag' : Tag} {args args' : List (List Char)}

theorem IsCall.ne_nil (h : IsCall text tag args) : args ≠ [] := by
  have harity : tag.arity ≠ 0 := by cases tag <;> decide
  rintro rfl
  exact harity h.length_eq.symm

theorem IsCall.decode_eq (h : IsCall text tag args) :
    decode text = ofCall decode text tag args := by
  obtain rfl := h.eq_tagged
  exact decode_tagged tag h.ne_nil h.closed

theorem IsCall.splitCall_eq (h : IsCall text tag args) :
    splitCall text.tail = .ok (tag.text.toList, args) := by
  rw [h.eq_tagged]
  exact splitCall_tagged tag h.ne_nil h.closed

theorem IsCall.unique (h : IsCall text tag args) (h' : IsCall text tag' args') :
    tag = tag' ∧ args = args' := by
  have hsplit := h.splitCall_eq.symm.trans h'.splitCall_eq
  obtain ⟨hword, hargs⟩ := Prod.mk.inj (Except.ok.inj hsplit)
  have htag : some tag = some tag' := by rw [← ofText?_text tag, hword, ofText?_text tag']
  exact ⟨Option.some.inj htag, hargs⟩

theorem Denotes.unique {s t : SymType} (hs : Denotes text s) (ht : Denotes text t) : s = t := by
  have hread := (decode_of_denotes hs).symm.trans (decode_of_denotes ht)
  exact Except.ok.inj hread

theorem Denotes.head?_ne {n : String} (h : Denotes text (SymType.named n)) :
    text.head? ≠ some '@' := by
  cases h with
  | named _ hat => exact hat

end SymbolicTypes.SymType
