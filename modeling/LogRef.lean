import LogRef.Main
import LogRef.Proofs.Directive.Nearest
import LogRef.Proofs.Discovery.NestedRules
import LogRef.Proofs.Reference.Format
import LogRef.Proofs.Reference.LineTables
import LogRef.Proofs.Reference.MessageRoundTrip
import LogRef.Proofs.Reference.ArgumentRoundTrip
import LogRef.Proofs.Reference.SourceOrder
import LogRef.Proofs.Run.Agreement
import LogRef.Proofs.Run.BatchSize
import LogRef.Proofs.Run.ExactSplice
import LogRef.Proofs.Run.Faults
import LogRef.Proofs.Run.Frame
import LogRef.Proofs.Run.Interleaving
import LogRef.Proofs.Run.KeptEncoding
import LogRef.Proofs.Run.LockAccounts
import LogRef.Proofs.Run.LockReading
import LogRef.Proofs.Run.LockSoundness
import LogRef.Proofs.Run.OrderIndependence
import LogRef.Proofs.Run.StagedUse
import LogRef.Proofs.Settings.Loading
import LogRef.Proofs.Syntax.CallNames
import LogRef.Proofs.Syntax.TopLevel
import LogRef.Proofs.Syntax.Walk
