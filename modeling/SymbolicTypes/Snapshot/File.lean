import SymbolicTypes.Event
import SymbolicTypes.Settings.File
import SymbolicTypes.Snapshot.Reader
import SymbolicTypes.Snapshot.Writer

namespace SymbolicTypes

namespace Codebase

inductive LoadError
  | file
  | content (error : Snapshot.ReadError)
  deriving DecidableEq

def toText (b : Codebase) : String := b.snapshot.text

def ofText (text : String) : Except Snapshot.ReadError Codebase :=
  (Snapshot.ofText text).map ofSnapshot

def load : FileContent → Except LoadError (Codebase × List Event)
  | .text content =>
    match Snapshot.ofText content with
    | .ok s =>
      .ok (ofSnapshot s, [.snapshotLoaded s.classes.length s.traits.length s.functions.length])
    | .error e => .error (.content e)
  | .missing | .unreadable => .error .file

end Codebase

end SymbolicTypes
