import SymbolicTypes.Declaration
import SymbolicTypes.Naming
import SymbolicTypes.SortedMap

namespace SymbolicTypes

open Naming

/-- All that is known of a program, filed by normalized name. -/
structure Codebase where
  /-- Classes and interfaces. -/
  classes : SortedMap String ClassDecl := ∅
  traits : SortedMap String ClassDecl := ∅
  functions : SortedMap String FunctionDecl := ∅
  globals : SortedMap String TypeUnion := ∅
  constants : SortedMap String TypedName := ∅
  complete : Bool := false
  deriving DecidableEq, Inhabited

namespace Codebase

/-- A declaration replaces an earlier one of its name. -/
def insertClass (b : Codebase) (c : ClassDecl) : Codebase :=
  { b with classes := b.classes.insert (normalize c.name) c }

def insertTrait (b : Codebase) (c : ClassDecl) : Codebase :=
  { b with traits := b.traits.insert (normalize c.name) c }

def insertFunction (b : Codebase) (f : FunctionDecl) : Codebase :=
  { b with functions := b.functions.insert (normalize f.name) f }

def insertGlobal (b : Codebase) (name : String) (type : TypeUnion) : Codebase :=
  { b with globals := b.globals.insert (normalizeVariable name) type }

def insertConstant (b : Codebase) (c : TypedName) : Codebase :=
  { b with constants := b.constants.insert (normalize c.name) c }

def markComplete (b : Codebase) : Codebase := { b with complete := true }

def class? (b : Codebase) (name : String) : Option ClassDecl := b.classes.get? (normalize name)

def trait? (b : Codebase) (name : String) : Option ClassDecl := b.traits.get? (normalize name)

def function? (b : Codebase) (name : String) : Option FunctionDecl :=
  b.functions.get? (normalize name)

def global? (b : Codebase) (name : String) : Option TypeUnion :=
  b.globals.get? (normalizeVariable name)

def constant? (b : Codebase) (name : String) : Option TypedName :=
  b.constants.get? (normalize name)

end Codebase

structure Snapshot where
  classes : List ClassDecl := []
  traits : List ClassDecl := []
  functions : List FunctionDecl := []
  globals : SortedMap String TypeUnion := ∅
  constants : List TypedName := []
  complete : Bool := true
  deriving DecidableEq, Inhabited

def Codebase.snapshot (b : Codebase) : Snapshot where
  classes := b.classes.values
  traits := b.traits.values
  functions := b.functions.values
  globals := b.globals
  constants := b.constants.values
  complete := b.complete

def Codebase.ofSnapshot (s : Snapshot) : Codebase :=
  let b := s.classes.foldl insertClass {}
  let b := s.traits.foldl insertTrait b
  let b := s.functions.foldl insertFunction b
  let b := s.globals.entries.foldl (fun b e => b.insertGlobal e.1 e.2) b
  let b := s.constants.foldl insertConstant b
  if s.complete then b.markComplete else b

end SymbolicTypes
