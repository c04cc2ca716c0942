import TinyGoDriver.Aws.CanonicalHeaders
import TinyGoDriver.Aws.EscapedPath
import TinyGoDriver.HttpMux.Documented
import TinyGoDriver.HttpMux.Redirect
import TinyGoDriver.HttpServer.ChanListener
import TinyGoDriver.HttpServer.Dispatch
import TinyGoDriver.HttpServer.Serve
import TinyGoDriver.Https.Cancellation
import TinyGoDriver.Https.Matching
import TinyGoDriver.Https.NativeConn
import TinyGoDriver.Https.RoundTrip
import TinyGoDriver.Httprevproxy.MaxLatencyWriter
import TinyGoDriver.Netdev.Descriptors
import TinyGoDriver.Netdev.DnsAnswer
import TinyGoDriver.Netdev.Send
import TinyGoDriver.Netdev.TlsRecv
import TinyGoDriver.Rsasign.Pkcs8
import TinyGoDriver.S3.Body
import TinyGoDriver.S3.Redirect
import TinyGoDriver.Schannel.ReadStream
import TinyGoDriver.SqlBatch.Atomic
import TinyGoDriver.Sqlite.Exec
import TinyGoDriver.Sqlite.Interrupt
import TinyGoDriver.Xmlro.Charset
import TinyGoDriver.Zstd.Streaming
import TinyGoDriver.Zstd.NormalizeCounts
import TinyGoDriver.Zstd.OutputLimit
import TinyGoDriver.Zstd.SplitRuns
import TinyGoDriver.Zstd.Window
import TinyGoDriver.Zstd.LiteralsEncode
import TinyGoDriver.Lib.Ieee
import TinyGoDriver.Cbor.Types
import TinyGoDriver.Cbor.Float
import TinyGoDriver.Cbor.Cursor
import TinyGoDriver.Cbor.Reader
import TinyGoDriver.Go.Reads
import TinyGoDriver.Go.Utf8
import TinyGoDriver.Cbor.Path
import TinyGoDriver.Cbor.Item
import TinyGoDriver.Cbor.Reading
import TinyGoDriver.Cbor.Profile
import TinyGoDriver.Cbor.Encoder
import TinyGoDriver.Cbor.Write
import TinyGoDriver.Cbor.Value
import TinyGoDriver.Datastore.Call
import TinyGoDriver.Datastore.Tx
import TinyGoDriver.Zstd.FseEncode
import TinyGoDriver.Jwt.Verify
import TinyGoDriver.Datastore.CommitSize
import TinyGoDriver.Datastore.Index
import TinyGoDriver.Dynamodb.Number
