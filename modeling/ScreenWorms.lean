import ScreenWorms.ForStd.SortedMap
import ScreenWorms.ForStd.Machine
import ScreenWorms.ForStd.Lehmer
import ScreenWorms.ForStd.Crc
import ScreenWorms.ForStd.Words
import ScreenWorms.ForStd.EventLoop
import ScreenWorms.ForStd.Getopt
import ScreenWorms.ForStd.LoopNetwork
import ScreenWorms.ForStd.Network
import ScreenWorms.Common.Messages
import ScreenWorms.Common.Decoder
import ScreenWorms.Common.Encoder
import ScreenWorms.Common.Batches
import ScreenWorms.Common.ClientMessages
import ScreenWorms.Common.Checksum
import ScreenWorms.Common.Records
import ScreenWorms.Common.PlayerNames
import ScreenWorms.Common.Text
import ScreenWorms.Common.Config
import ScreenWorms.Common.NameFields
import ScreenWorms.Common.Sockets
import ScreenWorms.Common.Timer
import ScreenWorms.Client.Client
import ScreenWorms.Client.Lines
import ScreenWorms.Client.Games
import ScreenWorms.Client.Names
import ScreenWorms.Client.PlayerNumbers
import ScreenWorms.Client.Requests
import ScreenWorms.Client.Gui
import ScreenWorms.Client.GuiText
import ScreenWorms.Client.Node
import ScreenWorms.Client.Loop
import ScreenWorms.Client.Config
import ScreenWorms.Server.Delivery
import ScreenWorms.Server.Broadcast
import ScreenWorms.Server.Containers
import ScreenWorms.Server.Bystanders
import ScreenWorms.Server.FirstMessage
import ScreenWorms.Server.UnsetGameId
import ScreenWorms.Server.Leaving
import ScreenWorms.Server.Loop
import ScreenWorms.Server.Config
import ScreenWorms.Server.Addresses
import ScreenWorms.Server.Fairness
import ScreenWorms.Server.Isolation
import ScreenWorms.Server.Datagrams
import ScreenWorms.Server.Numbering
import ScreenWorms.Server.Draws
import ScreenWorms.Server.Sending
import ScreenWorms.Server.GameLog
import ScreenWorms.Server.Pixels
import ScreenWorms.Server.Sessions
import ScreenWorms.Server.SessionLaw
import ScreenWorms.Server.Server
import ScreenWorms.Server.Turns
import ScreenWorms.Server.Duration
import ScreenWorms.Server.Places
import ScreenWorms.Server.EventLogs
import ScreenWorms.Server.History
import ScreenWorms.Server.Steering
import ScreenWorms.Server.Positions
import ScreenWorms.System.Clients
import ScreenWorms.System.System
import ScreenWorms.System.Loops
import ScreenWorms.System.Steering
import ScreenWorms.System.CatchUp
import ScreenWorms.System.Reads
