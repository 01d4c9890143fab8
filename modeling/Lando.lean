import Lando.Session
import Lando.Handshake
import Lando.DerpFrame
import Lando.H2Frame
import Lando.H2Writer
import Lando.HostDerp
import Lando.FwDerp
import Lando.Disco
import Lando.FwNode
import Lando.FwRelay
import Lando.MapFrames
import Lando.Decimal
import Lando.Noise
import Lando.NoiseHandshake
import Lando.NoiseResponder
import Lando.FwControl
import Lando.FwH2Conn
import Lando.HostTransport
import Lando.Transports
import Lando.H2Batch
import Lando.H2Client
import Lando.FwPost
import Lando.HostPost
import Lando.H2Run
import Lando.Posts
import Lando.Reactions
import Lando.Requests
import Lando.EarlyPayload
import Lando.Machine
import Lando.Peer
import Lando.PeerTimers
import Lando.HostNode
import Lando.HostLifetimes
import Lando.FwEphemeral
import Lando.Json
import Lando.Keys
import Lando.Netmap
import Lando.PollNetmap
import Lando.Addressed
import Lando.FwDisco
import Lando.PeerKeepalive
import Lando.FwConfig
import Lando.Hex
import Lando.HostState
import Lando.Rfc8259
import Lando.Rfc8259Parser
import Lando.JsonField
import Lando.Rfc8259Compact
import Lando.JsonWriter
import Lando.ControlRequests
import Lando.Login
import Lando.NetmapPeers
import Lando.DnsQuestions
import Lando.Mdns
import Lando.DerpLatency
import Lando.TsmpPong
import Lando.EarlyPayload32
import Lando.Timestamps
import Lando.Hpack
import Lando.Fifo
import Lando.FwTunnel
import Lando.HostTunnel
import Lando.Checked
import Lando.Rfc4648
import Lando.Base64
import Lando.KeyTexts
import Lando.FwNonces
import Lando.JsonSlices
import Lando.Renderers
import Lando.FwBoot
import Lando.PeerLink
import Lando.FwWorkers
import Lando.DerpLogin
import Lando.FwMdns
import Lando.FwTraffic
import Lando.FwSupervisor
import Lando.FwRequests
import Lando.JsonPrefix
import Lando.FwMapPoll
import Lando.FwDevice
