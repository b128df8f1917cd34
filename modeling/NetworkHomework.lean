import NetworkHomework.Base.Loop
import NetworkHomework.Base.Runs
import NetworkHomework.Base.Outbound
import NetworkHomework.Base.BigEndian
import NetworkHomework.Base.Decoder
import NetworkHomework.Base.Numerals
import NetworkHomework.Base.Conversions
import NetworkHomework.Base.Streams
import NetworkHomework.Base.Paths
import NetworkHomework.Qt.DataStream
import NetworkHomework.Qt.TextStream
import NetworkHomework.Qt.Server
import NetworkHomework.Qt.Client
import NetworkHomework.Qt.RoundTrip
import NetworkHomework.Qt.Download
import NetworkHomework.Qt.Isolation
import NetworkHomework.Qt.Grammar
import NetworkHomework.FileServer.Transceiver
import NetworkHomework.FileServer.Path
import NetworkHomework.FileServer.Confinement
import NetworkHomework.Http.Range
import NetworkHomework.Http.Provider
import NetworkHomework.Interceptor.CallIntercepter
import NetworkHomework.Torrent.MainLoop
import NetworkHomework.Asio.Echo
import NetworkHomework.Qt.Boundaries
import NetworkHomework.Qt.Editions
import NetworkHomework.Interceptor.Descriptors
import NetworkHomework.TcpEcho.Communicate
import NetworkHomework.Text.Trim
import NetworkHomework.UdpEcho.Server
import NetworkHomework.Base.Ownership
import NetworkHomework.SocketWrapper.Socket
import NetworkHomework.TcpEcho.Main
import NetworkHomework.Base.Utf16
import NetworkHomework.Base.Utf8
import NetworkHomework.Qt.Confinement
import NetworkHomework.Base.Arrays
import NetworkHomework.SendLoops.Raw
import NetworkHomework.Qt.Transmission
import NetworkHomework.SendLoops.Permanent
import NetworkHomework.Qt.Encoders
import NetworkHomework.Qt.Termination
import NetworkHomework.Http.Client
import NetworkHomework.Http.Slice
import NetworkHomework.Interceptor.Segments
import NetworkHomework.Qt.Refusal
import NetworkHomework.FileServer.Mapping
import NetworkHomework.FileServer.Command
import NetworkHomework.FileServer.CommandLoop
import NetworkHomework.FileServer.SizeFict
import NetworkHomework.TcpEcho.Connect
import NetworkHomework.Torrent.Handles
import NetworkHomework.Torrent.Interrupts
import NetworkHomework.Qt.Target
import NetworkHomework.Text.Positions
import NetworkHomework.Text.ReadPort
import NetworkHomework.Base.Multimap
import NetworkHomework.Http.Encoding
import NetworkHomework.Http.Exchange
import NetworkHomework.Base.Pipe
import NetworkHomework.FileServer.Wire
import NetworkHomework.Qt.Session
import NetworkHomework.TcpEcho.System
import NetworkHomework.Torrent.Restarts
import NetworkHomework.UdpEcho.System
import NetworkHomework.Http.Listen
import NetworkHomework.Http.Chunked
import NetworkHomework.Qt.Wiring
import NetworkHomework.Http.Connection
