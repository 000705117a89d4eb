import BinaryXml.CommandLine.Workspace
import BinaryXml.Main
import BinaryXml.Proofs.Stream.Grammar
import BinaryXml.Stream.Buffer
import BinaryXml.Proofs.Stream.Forms
import BinaryXml.Proofs.Stream.Recognition
import BinaryXml.Proofs.Language.Lookup
import BinaryXml.Proofs.Stream.Production
import BinaryXml.Proofs.Stream.RoundTrip
import BinaryXml.Proofs.Stream.Capacity
import BinaryXml.Proofs.Stream.Settled
import BinaryXml.Proofs.Stream.Canonical
import BinaryXml.Proofs.Xml.Grammar
import BinaryXml.Proofs.Text.Numeral
import BinaryXml.Proofs.Xml.Escaping
import BinaryXml.Proofs.Xml.Attributes
import BinaryXml.Proofs.Xml.Tags
import BinaryXml.Proofs.Xml.TagExactness
import BinaryXml.Proofs.Document.Unqualified
import BinaryXml.Proofs.Xml.Written
import BinaryXml.Proofs.Xml.Brackets
import BinaryXml.Proofs.Xml.Exactness
import BinaryXml.Proofs.Xml.Documents
import BinaryXml.Proofs.Conversion
import BinaryXml.Proofs.Stream.Truncation
import BinaryXml.Proofs.Stream.Spelling
import BinaryXml.Proofs.Xml.RoundTrip
import BinaryXml.Proofs.Xml.Pretty
import BinaryXml.Proofs.Reencoding
import BinaryXml.Proofs.Stream.Writable
import BinaryXml.Proofs.Stream.Depth
import BinaryXml.Proofs.Stream.Lockstep
import BinaryXml.Proofs.Nesting
import BinaryXml.Proofs.Document.Joined
import BinaryXml.Proofs.Reading
import BinaryXml.Proofs.Stream.Stripping
import BinaryXml.Proofs.Document.Uncommented
import BinaryXml.Proofs.Stream.Comments
import BinaryXml.Proofs.CommandLine.Runs
import BinaryXml.Proofs.Stream.Refusal
import BinaryXml.Proofs.Stream.Places
import BinaryXml.Proofs.Stream.ZeroCharacters
import BinaryXml.Proofs.Opaque.Encoding
import BinaryXml.Proofs.Stream.Emission
import BinaryXml.Proofs.Stream.OpaqueBlocks
import BinaryXml.Proofs.Xml.ReferencePlaces
import BinaryXml.Proofs.Xml.Namespaces
import BinaryXml.Proofs.Stream.StringTables
import BinaryXml.Proofs.Stream.Sequences
import BinaryXml.Proofs.Stream.Expansion
import BinaryXml.Proofs.Xml.Charsets
import BinaryXml.Proofs.Stream.Respelling
import BinaryXml.Proofs.Stream.Scanning
import BinaryXml.Proofs.Stream.Interning
import BinaryXml.Proofs.Language.Tags
import BinaryXml.Proofs.Language.Attributes
import BinaryXml.Proofs.Stream.WrittenAttributes
import BinaryXml.Proofs.Stream.Reads
import BinaryXml.Proofs.Stream.Bounds
import BinaryXml.Proofs.Stream.Writes
import BinaryXml.Proofs.Opaque.Alphabets
