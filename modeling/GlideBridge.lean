import GlideBridge.Argument
import GlideBridge.Json.Writer
import GlideBridge.Proofs.Conservation
import GlideBridge.Service.Basic
import GlideBridge.Proofs.CallSites
import GlideBridge.Proofs.Layout
import GlideBridge.Proofs.Report
import GlideBridge.Proofs.OpenText
import GlideBridge.Proofs.FormContext
import GlideBridge.Proofs.LineWise
import GlideBridge.Proofs.Statement
import GlideBridge.Proofs.Triggers
import GlideBridge.Proofs.Callees
import GlideBridge.Proofs.Reading
import GlideBridge.Proofs.CallRules
import GlideBridge.Proofs.StatementLines
import GlideBridge.Proofs.RecordLines
import GlideBridge.Proofs.ClosingLines
import GlideBridge.Proofs.Translation
import GlideBridge.Proofs.Wrapping
import GlideBridge.Proofs.Unwrapping
import GlideBridge.Proofs.Derivative
import GlideBridge.Proofs.Sites
import GlideBridge.Proofs.RecordAccess
import GlideBridge.Proofs.CallCounts
import GlideBridge.Proofs.Chains
import GlideBridge.Proofs.LeftoverCounts
import GlideBridge.Proofs.CommentLines
import GlideBridge.Proofs.LooseCalls
import GlideBridge.Proofs.Endpoint
import GlideBridge.Proofs.LogMessages
import GlideBridge.Proofs.Untouched
import GlideBridge.Proofs.Expression
import GlideBridge.Proofs.Passing
import GlideBridge.Proofs.Getters
import GlideBridge.Proofs.CallHeads
import GlideBridge.Proofs.PassThrough
import GlideBridge.Proofs.RunningOn
import GlideBridge.Proofs.LineBreaks
import GlideBridge.Proofs.Parentheses
import GlideBridge.Proofs.Separation
import GlideBridge.Proofs.Precedence
import GlideBridge.Proofs.Splicing
import GlideBridge.Proofs.Conditions
import GlideBridge.Proofs.Meaning
import GlideBridge.Proofs.Distinct
import GlideBridge.Proofs.Expansion
import GlideBridge.Proofs.KeptLines
import GlideBridge.Proofs.DoubledTerminators
import GlideBridge.Proofs.Marks
import GlideBridge.Proofs.Preamble
import GlideBridge.Proofs.Lines
