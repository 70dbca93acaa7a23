import SymbolicTypes.SymType.Arguments
import SymbolicTypes.SymType.Basic
import SymbolicTypes.SymType.Text

namespace SymbolicTypes.SymType

inductive Flaw
  | missingOpening
  | missingClosing
  | unbalanced
  | emptyName
  deriving DecidableEq

def Flaw.message : Flaw → String
  | missingOpening => "missing '('"
  | missingClosing => "missing closing ')'"
  | unbalanced => "unbalanced brackets"
  | emptyName => "empty name"

/-- Why a text is not the text form of a type. Each cause but the first names the indirection it
was found in. -/
inductive DecodeError
  | empty
  | unknownTag (tag text : String)
  | malformed (text : String) (flaw : Flaw)
  | arity (tag : Tag) (found : Nat) (text : String)
  | badIndex (index text : String)
  deriving DecidableEq

def DecodeError.message : DecodeError → String
  | empty => "empty type expression"
  | unknownTag tag text => "unknown type expression tag '@" ++ tag ++ "' in '" ++ text ++ "'"
  | malformed text flaw => "malformed type expression '" ++ text ++ "': " ++ flaw.message
  | arity tag found text =>
    "'@" ++ tag.text ++ "' takes " ++ toString tag.arity ++ " argument(s), found "
      ++ toString found ++ " in '" ++ text ++ "'"
  | badIndex index text => "invalid parameter index '" ++ index ++ "' in '" ++ text ++ "'"

def splitCall (body : List Char) : Except Flaw (List Char × List (List Char)) :=
  match body.dropWhile (· ≠ '(') with
  | [] => .error .missingOpening
  | _ :: rest =>
    if rest.getLast? = some ')' then
      match splitArgs 0 rest.dropLast with
      | some args => .ok (body.takeWhile (· ≠ '('), args)
      | none => .error .unbalanced
    else .error .missingClosing

theorem length_lt_of_splitCall {body word : List Char} {args : List (List Char)}
    (h : splitCall body = .ok (word, args)) : ∀ a ∈ args, a.length < body.length := by
  have hlen : (body.dropWhile (· ≠ '(')).length ≤ body.length :=
    (List.dropWhile_sublist _).length_le
  unfold splitCall at h
  split at h
  · cases h
  · next rest hrest =>
    rw [hrest, List.length_cons] at hlen
    split at h
    · split at h
      · next hsplit =>
        cases h
        intro a ha
        have := length_le_of_mem_splitArgs hsplit a ha
        rw [List.length_dropLast] at this
        omega
      · cases h
    · cases h

def decimal (digits : List Char) : Nat :=
  digits.foldl (fun n c => 10 * n + (c.toNat - '0'.toNat)) 0

def parseIndex (word : List Char) : Option UInt64 :=
  let digits := if word.head? = some '+' then word.tail else word
  if digits ≠ [] ∧ digits.all Char.isDigit ∧ decimal digits < Nat.pow 2 64 then
    some (UInt64.ofNat (decimal digits))
  else none

def parseName (text a : List Char) : Except DecodeError String :=
  if a = [] then .error (.malformed (String.ofList text) .emptyName) else .ok (String.ofList a)

def ofCall (read : List Char → Except DecodeError SymType) (text : List Char) :
    Tag → List (List Char) → Except DecodeError SymType
  | .global, [a] => do return global (← parseName text a)
  | .constant, [a] => do return constant (← parseName text a)
  | .arrayOf, [a] => do return arrayOf (← read a)
  | .elementOf, [a] => do return elementOf (← read a)
  | .call, [a] => do return callOf (← parseName text a)
  | .method, [a, b] => do return methodOf (← read a) (← parseName text b)
  | .property, [a, b] => do return propertyOf (← read a) (← parseName text b)
  | .staticMethod, [a, b] => do return staticMethodOf (← parseName text a) (← parseName text b)
  | .staticProperty, [a, b] => do
    return staticPropertyOf (← parseName text a) (← parseName text b)
  | .interfaceParam, [a, b, c] =>
    match parseIndex a with
    | some i => do return interfaceParam i (← parseName text b) (← parseName text c)
    | none => .error (.badIndex (String.ofList a) (String.ofList text))
  | tag, args => .error (.arity tag args.length (String.ofList text))

/-- One level of a text: its brackets are checked first, then its tag, then the number of its
arguments and the arguments themselves. -/
def decodeStep (read : List Char → Except DecodeError SymType) (text : List Char) :
    Except DecodeError SymType :=
  match text with
  | [] => .error .empty
  | '@' :: body =>
    match splitCall body with
    | .error flaw => .error (.malformed (String.ofList text) flaw)
    | .ok (word, args) =>
      match Tag.ofText? word with
      | none => .error (.unknownTag (String.ofList word) (String.ofList text))
      | some tag => ofCall read text tag args
  | _ => .ok (named (String.ofList text))

def decodeWithin : Nat → List Char → Except DecodeError SymType
  | 0, _ => .error .empty
  | n + 1, text => decodeStep (decodeWithin n) text

def decode (text : List Char) : Except DecodeError SymType := decodeWithin (text.length + 1) text

theorem ofCall_congr {f g : List Char → Except DecodeError SymType} {text : List Char} {tag : Tag}
    {args : List (List Char)} (h : ∀ a ∈ args, f a = g a) :
    ofCall f text tag args = ofCall g text tag args := by
  unfold ofCall
  split <;> first | rfl | rw [h _ List.mem_cons_self]

theorem decodeStep_congr {f g : List Char → Except DecodeError SymType} {text : List Char}
    (h : ∀ a, a.length < text.length → f a = g a) : decodeStep f text = decodeStep g text := by
  unfold decodeStep
  split
  · rfl
  · next body =>
    split
    · rfl
    · next word args hcall =>
      split
      · rfl
      · refine ofCall_congr fun a ha => h a ?_
        have := length_lt_of_splitCall hcall a ha
        simp only [List.length_cons]
        omega
  · rfl

theorem decodeWithin_eq {n m : Nat} {text : List Char} (hn : text.length < n)
    (hm : text.length < m) : decodeWithin n text = decodeWithin m text := by
  induction n generalizing m text with
  | zero => omega
  | succ n ih =>
    cases m with
    | zero => omega
    | succ m => exact decodeStep_congr fun a ha => ih (by omega) (by omega)

theorem decode_eq (text : List Char) : decode text = decodeStep decode text :=
  decodeStep_congr fun _ ha => decodeWithin_eq ha (Nat.lt_succ_self _)

def ofText (text : String) : Except DecodeError SymType := decode text.toList

end SymbolicTypes.SymType
