import SymbolicTypes.SymType.Decode
import SymbolicTypes.TypeNames
import SymbolicTypes.Codebase
import SymbolicTypes.Tree.Trace
import SymbolicTypes.Variables
import SymbolicTypes.Inheritance.Members
import SymbolicTypes.Inheritance.Implements
import SymbolicTypes.Resolution.Bound
import SymbolicTypes.Json.Parser
import SymbolicTypes.Json.Printer
import SymbolicTypes.Json.Number
import SymbolicTypes.Snapshot.File
import SymbolicTypes.Settings.File
import SymbolicTypes.Proofs.SymType.Arguments
import SymbolicTypes.Proofs.SymType.Decode
import SymbolicTypes.Proofs.SymType.RoundTrip
import SymbolicTypes.Proofs.Json.Quoted
import SymbolicTypes.Proofs.Json.RoundTrip
import SymbolicTypes.Proofs.Naming
import SymbolicTypes.Proofs.Text.ByteOrder
import SymbolicTypes.Proofs.Codebase.Retype
import SymbolicTypes.Proofs.Codebase.Filing
import SymbolicTypes.Proofs.Codebase.LastFiling
import SymbolicTypes.Proofs.Snapshot.Reading
import SymbolicTypes.Proofs.Snapshot.Yields
import SymbolicTypes.Proofs.Snapshot.Records
import SymbolicTypes.Proofs.Snapshot.RoundTrip
import SymbolicTypes.Proofs.Snapshot.Reload
import SymbolicTypes.Proofs.SymType.Parts
import SymbolicTypes.Proofs.Query.Returns
import SymbolicTypes.Proofs.Inheritance.Declared
import SymbolicTypes.Proofs.Resolution.Sharing
import SymbolicTypes.Proofs.Resolution.Chaining
import SymbolicTypes.Proofs.SymType.Survival
import SymbolicTypes.Proofs.SymType.Renumbering
import SymbolicTypes.Proofs.Inheritance.Termination
import SymbolicTypes.Proofs.Inheritance.Methods
import SymbolicTypes.Proofs.Inheritance.Constants
import SymbolicTypes.Proofs.Inheritance.Interfaces
import SymbolicTypes.Proofs.Resolution.Soundness
import SymbolicTypes.Proofs.Resolution.Termination
import SymbolicTypes.Proofs.Resolution.Reachability
import SymbolicTypes.Proofs.Resolution.StaticBinding
import SymbolicTypes.Proofs.Resolution.Depth
import SymbolicTypes.Proofs.Resolution.Dispatch
import SymbolicTypes.Proofs.Resolution.Unwrapping
import SymbolicTypes.Proofs.Resolution.Nameless
import SymbolicTypes.Proofs.Resolution.EmptyArray
import SymbolicTypes.Proofs.Variables.Accesses
import SymbolicTypes.Proofs.Variables.Occurrences
import SymbolicTypes.Proofs.Inheritance.InterfaceScanning
import SymbolicTypes.Proofs.Codebase.Respelling
import SymbolicTypes.Proofs.Inheritance.Respelling
import SymbolicTypes.Proofs.Resolution.Begun
import SymbolicTypes.Proofs.Inheritance.Properties
import SymbolicTypes.Proofs.Resolution.Fetching
import SymbolicTypes.Proofs.Snapshot.Loading
import SymbolicTypes.Proofs.Tree.Reading
import SymbolicTypes.Proofs.Tree.Skipping
import SymbolicTypes.Proofs.TypeUnion
import SymbolicTypes.Proofs.SymType.Refusal
import SymbolicTypes.Proofs.Resolution.CallSpelling
