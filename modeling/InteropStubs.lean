import InteropStubs.Emitter.Script
import InteropStubs.Main
import InteropStubs.Proofs.Batch.Decoding
import InteropStubs.Proofs.Batch.Derived
import InteropStubs.Proofs.Batch.Encoding
import InteropStubs.Proofs.Batch.Order
import InteropStubs.Proofs.Emitter.Depth
import InteropStubs.Proofs.File.FirstError
import InteropStubs.Proofs.File.Properties
import InteropStubs.Proofs.Generate.Accessors
import InteropStubs.Proofs.Generate.Append
import InteropStubs.Proofs.Generate.Below
import InteropStubs.Proofs.Generate.Decoration
import InteropStubs.Proofs.Generate.Insertion
import InteropStubs.Proofs.Generate.Receiver
import InteropStubs.Proofs.Generate.Regeneration
import InteropStubs.Proofs.Generate.Within
import InteropStubs.Proofs.Outline.Extraction
