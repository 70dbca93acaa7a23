import SymbolicTypes.Codebase
import SymbolicTypes.Event

namespace SymbolicTypes

inductive LookupKind
  | classLike
  | trait
  | function
  | global
  | constant
  deriving DecidableEq

structure Lookup where
  kind : LookupKind
  name : String
  deriving DecidableEq

/-- A codebase as its readers see it: some lookups may fail. -/
structure Index where
  codebase : Codebase
  fails : Lookup → Bool := fun _ => false

inductive Step
  | asked (lookup : Lookup)
  /-- The expansion of a type begins, and its pair joins the guard. -/
  | begun (context : String) (type : SymType)
  /-- The expansion of a member of a union begins. -/
  | opened (type : SymType)
  | closed (type : SymType)
  | event (event : Event)
  deriving DecidableEq

/-- What a query comes to: its answer or the lookup that failed, the state it leaves behind in
either case, and its steps. -/
structure Outcome (σ α : Type) where
  answer : Except Lookup α
  state : σ
  steps : List Step

def Query (σ α : Type) := σ → Outcome σ α

namespace Query

variable {σ τ α β : Type}

def pure (a : α) : Query σ α := fun s => ⟨.ok a, s, []⟩

def bind (q : Query σ α) (f : α → Query σ β) : Query σ β := fun s =>
  match q s with
  | ⟨.ok a, s, steps⟩ =>
    let r := f a s
    ⟨r.answer, r.state, steps ++ r.steps⟩
  | ⟨.error l, s, steps⟩ => ⟨.error l, s, steps⟩

instance : Monad (Query σ) where
  pure := pure
  bind := bind

instance : LawfulMonad (Query σ) := LawfulMonad.mk' _
  (fun q => by
    funext s
    show bind q (fun a => pure a) s = q s
    unfold bind
    split <;> simp_all [pure])
  (fun a f => by
    funext s
    show bind (pure a) f s = f a s
    simp [bind, pure])
  (fun q f g => by
    funext s
    show bind (bind q f) g s = bind q (fun a => bind (f a) g) s
    simp only [bind]
    cases hq : q s with
    | mk answer t steps =>
      cases answer with
      | error l => simp
      | ok a =>
        cases hf : f a t with
        | mk answer u steps' => cases answer <;> simp [hf])

def get : Query σ σ := fun s => ⟨.ok s, s, []⟩

def set (s : σ) : Query σ Unit := fun _ => ⟨.ok (), s, []⟩

def step (e : Step) : Query σ Unit := fun s => ⟨.ok (), s, [e]⟩

def emit (e : Event) : Query σ Unit := step (.event e)

def isolated (t : τ) (q : Query τ α) : Query σ α := fun s =>
  let r := q t
  ⟨r.answer, s, r.steps⟩

/-- The query as a member of a union: its begin and its success are noted, its failure is reported
and passed on. -/
def asMember (t : SymType) (q : Query σ α) : Query σ α := fun s =>
  match q s with
  | ⟨.ok a, s, steps⟩ => ⟨.ok a, s, .opened t :: steps ++ [.closed t]⟩
  | ⟨.error l, s, steps⟩ => ⟨.error l, s, .opened t :: steps ++ [.event (.expansionFails t)]⟩

def firstSome (f : String → Query σ (Option β)) : List String → Query σ (Option β)
  | [] => pure none
  | a :: as => do
    match ← f a with
    | some b => pure (some b)
    | none => firstSome f as

def anyOf (f : String → Query σ Bool) : List String → Query σ Bool
  | [] => pure false
  | a :: as => do if ← f a then pure true else anyOf f as

end Query

namespace Index

variable {σ : Type}

def ask (ix : Index) (l : Lookup) : Query σ Unit := fun s =>
  ⟨if ix.fails l then .error l else .ok (), s, [.asked l]⟩

def class? (ix : Index) (name : String) : Query σ (Option ClassDecl) := do
  ix.ask ⟨.classLike, name⟩
  return ix.codebase.class? name

def trait? (ix : Index) (name : String) : Query σ (Option ClassDecl) := do
  ix.ask ⟨.trait, name⟩
  return ix.codebase.trait? name

def function? (ix : Index) (name : String) : Query σ (Option FunctionDecl) := do
  ix.ask ⟨.function, name⟩
  return ix.codebase.function? name

def global? (ix : Index) (name : String) : Query σ (Option TypeUnion) := do
  ix.ask ⟨.global, name⟩
  return ix.codebase.global? name

def constant? (ix : Index) (name : String) : Query σ (Option TypedName) := do
  ix.ask ⟨.constant, name⟩
  return ix.codebase.constant? name

def classOrTrait? (ix : Index) (name : String) : Query σ (Option ClassDecl) := do
  match ← ix.class? name with
  | some c => return some c
  | none => ix.trait? name

end Index

end SymbolicTypes
