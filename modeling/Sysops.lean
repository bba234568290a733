import Sysops.Library.Runs
import Sysops.Cw11.History
import Sysops.Cw11.Mutex
import Sysops.Cw11.Names
import Sysops.Cw11.Correspondence
import Sysops.Cw11.Heartbeat
import Sysops.Cw11.FirstFrame
import Sysops.Cw11.Framing
import Sysops.Cw11.Polling
import Sysops.Cw11.Wire
import Sysops.Cw11.PrivateMessage
import Sysops.Cw08.PrintQueue
import Sysops.Cw08.Alone
import Sysops.Cw08.Interrupts
import Sysops.Cw08.Forks
import Sysops.Cw08.Kills
import Sysops.Cw07.Chat
import Sysops.Cw07.Broadcast
import Sysops.Cw07.Readers
import Sysops.Cw07.Stuck
import Sysops.Cw07.Descriptors
import Sysops.Cw09.Grid
import Sysops.Cw09.Ranges
import Sysops.Cw09.Frames
import Sysops.Cw03.Reverse
import Sysops.Cw05.Confirmations
import Sysops.Cw06.Calculator
import Sysops.Cw10.Santa
import Sysops.Cw10.Team
import Sysops.Cw03.ByteWalk
import Sysops.Cw03.Main
import Sysops.Cw03.Shrinking
import Sysops.Cw06.Integral
import Sysops.Cw07.TextInput
import Sysops.Cw09.Conway
import Sysops.Cw11.ClientList
import Sysops.Cw11.InputLoop
import Sysops.Cw11.ToAll
import Sysops.Cw11.ToOne
import Sysops.Cw02.SmallInputs
import Sysops.Cw06.Parent
import Sysops.Cw11.CleanSlots
import Sysops.Cw11.Transcripts
import Sysops.Cw11.Shutdown
import Sysops.Cw08.Progress
import Sysops.Cw10.Finish
import Sysops.Cw06.Ending
import Sysops.Library.LocalRule
import Sysops.Cw09.Plane
import Sysops.Cw07.Authors
import Sysops.Cw04.Waits
import Sysops.Cw08.ForkTree
import Sysops.Cw05.Serial
import Sysops.Cw06.Fifos
