import WordMachine.Binary64.Arithmetic
import WordMachine.Binary64.Basic
import WordMachine.Binary64.Printer
import WordMachine.Binary64.Reader
import WordMachine.Binary64.Rounding
import WordMachine.Binary64.Shortest
import WordMachine.CommandLine.Execute
import WordMachine.CommandLine.Flag
import WordMachine.CommandLine.Options
import WordMachine.Demo
import WordMachine.Display
import WordMachine.Environment
import WordMachine.Error
import WordMachine.Library
import WordMachine.Log
import WordMachine.Machine
import WordMachine.Machine.Trace
import WordMachine.Main
import WordMachine.Operation
import WordMachine.Operation.Standard
import WordMachine.Outcome
import WordMachine.Power
import WordMachine.Program
import WordMachine.Proofs.Binary64.Alphabet
import WordMachine.Proofs.Binary64.Distinct
import WordMachine.Proofs.Binary64.Halfway
import WordMachine.Proofs.Binary64.Length
import WordMachine.Proofs.Binary64.Nearest
import WordMachine.Proofs.Binary64.Numerals
import WordMachine.Proofs.Binary64.RoundTrip
import WordMachine.Proofs.Binary64.RoundedOnce
import WordMachine.Proofs.Binary64.Shortest
import WordMachine.Proofs.CommandLine.Count
import WordMachine.Proofs.CommandLine.Grammar
import WordMachine.Proofs.CommandLine.Outcome
import WordMachine.Proofs.CommandLine.Scanning
import WordMachine.Proofs.CommandLine.ShowCount
import WordMachine.Proofs.CommandLine.Spelling
import WordMachine.Proofs.CommandLine.Verbosity
import WordMachine.Proofs.Environment.History
import WordMachine.Proofs.Environment.Keys
import WordMachine.Proofs.Library.Loading
import WordMachine.Proofs.Library.Reloading
import WordMachine.Proofs.Machine.Bindings
import WordMachine.Proofs.Machine.CodeAsData
import WordMachine.Proofs.Machine.Composition
import WordMachine.Proofs.Machine.Resumption
import WordMachine.Proofs.Machine.Steps
import WordMachine.Proofs.Machine.Tracing
import WordMachine.Proofs.Machine.Twins
import WordMachine.Proofs.Script.Blame
import WordMachine.Proofs.Script.Body
import WordMachine.Proofs.Stack.Lifo
import WordMachine.Proofs.Stack.Listing
import WordMachine.Proofs.Stack.Printed
import WordMachine.Proofs.StandardWords
import WordMachine.Proofs.StandardWords.Cases
import WordMachine.Proofs.StandardWords.Depth
import WordMachine.Proofs.StandardWords.Frame
import WordMachine.Proofs.StandardWords.Meaning
import WordMachine.Proofs.StandardWords.Payloads
import WordMachine.Proofs.StandardWords.Provenance
import WordMachine.Proofs.StandardWords.Shortage
import WordMachine.Proofs.Text.Literal
import WordMachine.Script
import WordMachine.Stack
import WordMachine.Text
import WordMachine.Text.Quoted
import WordMachine.Text.Template
import WordMachine.Value
