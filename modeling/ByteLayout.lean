import ByteLayout.Stream.Reader
import ByteLayout.Stream.Writer
import ByteLayout.Primitive.Access
import ByteLayout.Target.Parse
import ByteLayout.Proofs.Binary.Exact
import ByteLayout.Proofs.Binary.Widen
import ByteLayout.Proofs.Primitive.Word
import ByteLayout.Proofs.Layout.Encoding
import ByteLayout.Proofs.Layout.Decoding
import ByteLayout.Proofs.Layout.Precision
import ByteLayout.Proofs.Layout.Splicing
import ByteLayout.Proofs.Layout.Window
import ByteLayout.Proofs.Layout.Building
import ByteLayout.Proofs.Layout.Measured
import ByteLayout.Proofs.Layout.Making
import ByteLayout.Proofs.Layout.Tiling
import ByteLayout.Proofs.Stream.Calls
import ByteLayout.Proofs.Stream.RoundTrip
import ByteLayout.Proofs.Layout.Soundness
import ByteLayout.Proofs.Stream.Programs
import ByteLayout.Proofs.Bounds
import ByteLayout.Proofs.Stream.Names
import ByteLayout.Proofs.Stream.Rollback
import ByteLayout.Proofs.Stream.ByName
import ByteLayout.Proofs.Layout.Parts
import ByteLayout.Proofs.Layout.Patching
import ByteLayout.Proofs.Layout.Orders
import ByteLayout.Proofs.Layout.Turning
import ByteLayout.Proofs.Opposite
import ByteLayout.Proofs.Stream.Appending
import ByteLayout.Proofs.Layout.Access
import ByteLayout.Proofs.Layout.Assembly
import ByteLayout.Proofs.Registry.Meaning
import ByteLayout.Proofs.Registry.Portable
import ByteLayout.Proofs.Scalar.Integers
import ByteLayout.Proofs.Binary.Nearest
import ByteLayout.Proofs.Binary.Classes
import ByteLayout.Proofs.Scalar.Rounding
import ByteLayout.Proofs.Scalar.Single
import ByteLayout.Proofs.Registry.Structs
import ByteLayout.Proofs.Text.Spelling
import ByteLayout.Proofs.Target.Grammar
import ByteLayout.Proofs.Registry.Tables
import ByteLayout.Proofs.Scalar.Access
import ByteLayout.Proofs.Primitive.Sequence
import ByteLayout.Proofs.Registry.Lookup
