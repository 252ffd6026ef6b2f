import CeeServe.Lib.Words
import CeeServe.Http.HeaderScan
import CeeServe.Http.HeaderLines
import CeeServe.Http.RequestLine
import CeeServe.Http.StoreBounds
import CeeServe.Static.EndOfHeaders
import CeeServe.Static.HeadScanners
import CeeServe.Http.Parse
import CeeServe.Http.Encode
import CeeServe.Http.Lookup
import CeeServe.Lib.Decimal
import CeeServe.Lib.LexicalPath
import CeeServe.Lib.Machine
import CeeServe.Http.Response
import CeeServe.Static.ServeFile
import CeeServe.Static.Confinement
import CeeServe.Static.Connection
import CeeServe.Static.GetHead
import CeeServe.Static.Pipelining
import CeeServe.Static.Answers
import CeeServe.Static.Segmentation
import CeeServe.Static.FileCopy
import CeeServe.Static.Stream
import CeeServe.Static.Budget
import CeeServe.Lib.Transition
import CeeServe.Server.Zombies
import CeeServe.Static.OpenFiles
import CeeServe.Server.MainLoop
import CeeServe.Lib.PartialWrites
import CeeServe.Static.BodyLoop
import CeeServe.Static.Sending
import CeeServe.Static.Residue
import CeeServe.Http.Stability
import CeeServe.Http.LineSplit
import CeeServe.Http.Rendering
import CeeServe.Static.HeaderChoice
import CeeServe.Static.Serving
import CeeServe.Static.AccessLog
import CeeServe.Lib.Memory
import CeeServe.Static.Frame
import CeeServe.Server.System
import CeeServe.Server.Isolation
import CeeServe.Server.Supervision
import CeeServe.Static.Session
import CeeServe.Server.Clients
import CeeServe.Logger.Line
import CeeServe.Logger.LogStream
import CeeServe.Server.Files
import CeeServe.Static.SendBuffers
import CeeServe.Server.Startup
import CeeServe.Static.Overrun
import CeeServe.Server.Children
