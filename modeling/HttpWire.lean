import HttpWire.Text.Basic
import HttpWire.Text.Utf8
import HttpWire.Text.Utf8.Lemmas
import HttpWire.Text.Blank
import HttpWire.Text.Caseless
import HttpWire.Text.Caseless.Lemmas
import HttpWire.Text.Slice
import HttpWire.Text.Decimal
import HttpWire.Source.Basic
import HttpWire.Source.Signals
import HttpWire.Source.Line
import HttpWire.Fields.Basic
import HttpWire.Fields.Walk
import HttpWire.Fields.Shelf
import HttpWire.Percent
import HttpWire.Query
import HttpWire.Disposition.Scan
import HttpWire.Disposition.Basic
import HttpWire.Head.Limits
import HttpWire.Head.Error
import HttpWire.Head.Block
import HttpWire.Head.Basic
import HttpWire.Head.Request
import HttpWire.Head.Response
import HttpWire.Exchange
import HttpWire.Gate.Basic
import HttpWire.Gate.Session
import HttpWire.Lock.Basic
import HttpWire.Lock.Session
import HttpWire.Proofs.Text.Pieces
import HttpWire.Proofs.Source.Reading
import HttpWire.Proofs.Source.Delivery
import HttpWire.Proofs.Source.Lines
import HttpWire.Proofs.Head.FieldLines
import HttpWire.Proofs.Source.FirstLine
import HttpWire.Proofs.Source.LineRead
import HttpWire.Proofs.Source.Unfinished
import HttpWire.Proofs.Source.Events
import HttpWire.Proofs.Head.StartLine
import HttpWire.Proofs.Head.RequestLine
import HttpWire.Proofs.Head.StatusLine
import HttpWire.Proofs.Head.Written
import HttpWire.Proofs.Head.Simulation
import HttpWire.Proofs.Head.LineEnds
import HttpWire.Proofs.Head.Representable
import HttpWire.Proofs.Head.Failure
import HttpWire.Proofs.Head.Narrowing
import HttpWire.Proofs.Head.Consumption
import HttpWire.Proofs.Exchange.Delivery
import HttpWire.Proofs.Exchange.Refusal
import HttpWire.Proofs.Exchange.Transcript
import HttpWire.Proofs.Fields.Index
import HttpWire.Proofs.Fields.Classes
import HttpWire.Proofs.Head.KeepAlive
import HttpWire.Proofs.Head.BodyLength
import HttpWire.Proofs.Head.StatusCode
import HttpWire.Proofs.Head.DecodedPath
import HttpWire.Proofs.Percent.Escapes
import HttpWire.Proofs.Percent.Forms
import HttpWire.Proofs.Percent.Canonical
import HttpWire.Proofs.Percent.Splitting
import HttpWire.Proofs.Query.Joining
import HttpWire.Proofs.Query.RoundTrip
import HttpWire.Proofs.Query.Transport
import HttpWire.Proofs.Disposition.Items
import HttpWire.Proofs.Disposition.Scan
import HttpWire.Proofs.Disposition.Offsets
import HttpWire.Proofs.Disposition.Written
import HttpWire.Proofs.Disposition.Neighbours
import HttpWire.Proofs.Disposition.First
import HttpWire.Proofs.Gate.Counting
import HttpWire.Proofs.Gate.Stopping
import HttpWire.Proofs.Lock.Tally
import HttpWire.Proofs.Lock.Holders
import HttpWire.Proofs.Lock.Settling
import HttpWire.Proofs.Lock.Waking
import HttpWire.Proofs.Lock.Notices
import HttpWire.Proofs.Lock.Waiters
