import ProtoSchema.Main
import ProtoSchema.Proofs.Building.History
import ProtoSchema.Proofs.Checking.Lookup
import ProtoSchema.Proofs.Checking.Reporting
import ProtoSchema.Proofs.Checking.Validity
import ProtoSchema.Proofs.Command.Logging
import ProtoSchema.Proofs.Command.Processing
import ProtoSchema.Proofs.Layout.Invariance
import ProtoSchema.Proofs.Reading.Completion
import ProtoSchema.Proofs.Reading.Concatenation
import ProtoSchema.Proofs.Reading.Enclosure
import ProtoSchema.Proofs.Reading.Termination
import ProtoSchema.Proofs.Reading.Truncation
import ProtoSchema.Proofs.Reading.Walk
import ProtoSchema.Proofs.RoundTrip.Encoding
import ProtoSchema.Proofs.RoundTrip.Rendering
import ProtoSchema.Proofs.Scanning.Exactness
import ProtoSchema.Proofs.Scanning.Splitting
import ProtoSchema.Proofs.Source.Delivery
import ProtoSchema.Proofs.Text.Denotation
import ProtoSchema.Source.FileTree
import ProtoSchema.Validation
