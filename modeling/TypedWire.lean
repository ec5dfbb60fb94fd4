import TypedWire.Codec.Bespoke
import TypedWire.Codec.Decode
import TypedWire.Codec.Determinism
import TypedWire.Codec.Size
import TypedWire.Codec.Structure
import TypedWire.Registry
import TypedWire.Varint.Register
import TypedWire.Proofs.DecimalValue
import TypedWire.Proofs.DecoderLaws
import TypedWire.Proofs.Encoding
import TypedWire.Proofs.GroupingKey
import TypedWire.Proofs.Insertion
import TypedWire.Proofs.LengthPrefix
import TypedWire.Proofs.Likeness
import TypedWire.Proofs.Locality
import TypedWire.Proofs.Numerals
import TypedWire.Proofs.ReadPlan
import TypedWire.Proofs.Reading
import TypedWire.Proofs.RoundTrip
import TypedWire.Proofs.Settling
import TypedWire.Proofs.Standard
import TypedWire.Proofs.SteadySource
import TypedWire.Proofs.StructuralEquality
import TypedWire.Proofs.StructuralOrder
import TypedWire.Proofs.Text
import TypedWire.Proofs.ValueOrder
import TypedWire.Proofs.WillingSink
import TypedWire.Proofs.SizeEstimation
import TypedWire.Proofs.Tightening
import TypedWire.Proofs.Gathering
import TypedWire.Proofs.Taking
import TypedWire.Proofs.Acceptance
import TypedWire.Proofs.Limits
import TypedWire.Proofs.Normalisation
import TypedWire.Proofs.CanonicalForm
import TypedWire.Proofs.DeterminismReport
import TypedWire.Proofs.Evidence
import TypedWire.Proofs.BrokenSink
import TypedWire.Proofs.BrokenSource
import TypedWire.Proofs.RegistryTable
import TypedWire.Proofs.RegistryCalls
import TypedWire.Proofs.RegistryCoherence
import TypedWire.Proofs.TypeExpansion
import TypedWire.Proofs.RegistryResolution
import TypedWire.Proofs.MemoCounts
import TypedWire.Proofs.RegistryOverrides
import TypedWire.Proofs.SourceAccounts
import TypedWire.Proofs.Finding
import TypedWire.Proofs.ReadingInto
import TypedWire.Proofs.BulkBytes
import TypedWire.Proofs.EntryPairs
import TypedWire.Proofs.SequenceShapes
import TypedWire.Proofs.Registers
import TypedWire.Proofs.PrefixGrammar
import TypedWire.Proofs.SignedNumerals
import TypedWire.Proofs.DecimalForm
import TypedWire.Proofs.BufferedPrefix
import TypedWire.Proofs.CountedReading
import TypedWire.Proofs.CheapEstimates
import TypedWire.Proofs.ErrorPaths
import TypedWire.Proofs.ErrorRoutes
import TypedWire.Proofs.EndOfInput
import TypedWire.Proofs.InsertionOrder
import TypedWire.Proofs.TextFaults

