import Lz4Frame.Bound
import Lz4Frame.Codec
import Lz4Frame.Compressor
import Lz4Frame.Decompressor
import Lz4Frame.Frame.Layout
import Lz4Frame.Host.Contention
import Lz4Frame.Host.Lock
import Lz4Frame.Stream.Reader
import Lz4Frame.Stream.Writer
import Lz4Frame.Version
import Lz4Frame.Proofs.Agreement
import Lz4Frame.Proofs.Bound.Exactness
import Lz4Frame.Proofs.Codec.Growth
import Lz4Frame.Proofs.Codec.Storage
import Lz4Frame.Proofs.Codec.Streaming
import Lz4Frame.Proofs.Compressor.Cuts
import Lz4Frame.Proofs.Compressor.DeclaredSize
import Lz4Frame.Proofs.Compressor.Lifecycle
import Lz4Frame.Proofs.Compressor.Past
import Lz4Frame.Proofs.Decompressor.FrameInfo
import Lz4Frame.Proofs.Decompressor.InputHints
import Lz4Frame.Proofs.FalseLength
import Lz4Frame.Proofs.Flushed
import Lz4Frame.Proofs.Host.Accounting
import Lz4Frame.Proofs.Host.Protocol
import Lz4Frame.Proofs.Refusals
import Lz4Frame.Proofs.RoundTrip
import Lz4Frame.Proofs.Stream.HeaderInfo
import Lz4Frame.Proofs.Stream.Writer
import Lz4Frame.Proofs.Stream.Written
import Lz4Frame.Proofs.Tampering
import Lz4Frame.Proofs.Termination
import Lz4Frame.Proofs.Truncation
import Lz4Frame.Proofs.WantOfRoom
import Lz4Frame.Proofs.WireFormat
