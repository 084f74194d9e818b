import LibAt.Prompt
import LibAt.Injection
import LibAt.PduHeader
import LibAt.Reassembly
import LibAt.Interleaving
import LibAt.Progress
import LibAt.Routing
import LibAt.EchoTrap
import LibAt.FreshStart
import LibAt.CleanLines
import LibAt.Acceptance
import LibAt.ConfigSoundness
import LibAt.Septets
import LibAt.SemiOctets
import LibAt.Submit
import LibAt.Segments
import LibAt.FirstWins
import LibAt.Saturation
import LibAt.BuilderLaw
import LibAt.Unpacking
import LibAt.BoundedMap
import LibAt.UrcMap
import LibAt.Readings
import LibAt.Timestamps
import LibAt.HeaderText
import LibAt.Definedness
import LibAt.SmsRoundTrip
import LibAt.OperatorNames
import LibAt.Narrowing
import LibAt.PdpAddress
import LibAt.PrefixTable
import LibAt.PinStatus
import LibAt.ParserSafety
import LibAt.Tracing
import LibAt.OnTheWire
import LibAt.Contract
import LibAt.ClosedLoop
import LibAt.Recovery
import LibAt.Reports
import LibAt.Conversation
import LibAt.Interrupts
import LibAt.Deadlines
import LibAt.Arrivals
