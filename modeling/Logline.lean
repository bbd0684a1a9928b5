import Logline.Text.Utf8.RoundTrip
import Logline.Text.Escaped
import Logline.Text.Quoted
import Logline.Decimal.Notation
import Logline.Json.Reader
import Logline.Levels
import Logline.Labels
import Logline.Moment
import Logline.Settings
import Logline.Value.Pairs
import Logline.Value.Shelf
import Logline.Line.Values
import Logline.Line.Document
import Logline.Line.Draft
import Logline.Output.Sink
import Logline.Unwind
import Logline.LineStream
import Logline.Spans
import Logline.Value.Marshal
import Logline.Proofs.Text.Decoding
import Logline.Proofs.Decimal.Numbers
import Logline.Proofs.Json.Tree
import Logline.Proofs.Value.Filling
import Logline.Proofs.Line.Calls
import Logline.Proofs.Line.Threads
import Logline.Proofs.Line.Interrupted
import Logline.Line.Pool
import Logline.Proofs.Line.Pool
import Logline.Proofs.Line.Offers
import Logline.Proofs.Line.Past
import Logline.Proofs.Line.Asking
import Logline.Proofs.Line.Fits
import Logline.Proofs.Text.Quoting
import Logline.Proofs.Value.Orders
import Logline.Proofs.Line.Orders
import Logline.Proofs.Settings.Updates
import Logline.Proofs.Line.KeyOrders
import Logline.Proofs.Settings.Switching
import Logline.Proofs.Settings.Registering
import Logline.Proofs.Spans.Context
import Logline.Proofs.Exits
import Logline.Proofs.Text.Scanning
import Logline.Proofs.Value.Shelf
import Logline.Proofs.Line.Endings
import Logline.Proofs.ExitsWithin
import Logline.Proofs.Value.Overlays
import Logline.Proofs.Streams
import Logline.Proofs.Settings.Restoring
import Logline.Proofs.Spans.Events
import Logline.Proofs.Line.Handed
import Logline.Proofs.Line.Cuts
import Logline.Proofs.Line.Appended
import Logline.Proofs.Line.CloudMember
import Logline.Proofs.Settings.Environment
import Logline.Proofs.Line.Splicing
import Logline.Proofs.Contexts
import Logline.Proofs.Settings.Labels
import Logline.Proofs.Moments
import Logline.Proofs.SourcePaths
import Logline.Proofs.Line.Numbers
