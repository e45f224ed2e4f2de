import ForgeMush.Decode
import ForgeMush.Subnegotiation
import ForgeMush.Progress
import ForgeMush.Output
import ForgeMush.Echo
import ForgeMush.Agreement
import ForgeMush.Readiness
import ForgeMush.History
import ForgeMush.Answers
import ForgeMush.Commands
import ForgeMush.RoundTrip
import ForgeMush.Registry
import ForgeMush.TelnetPortal
import ForgeMush.Listening
import ForgeMush.Secured
import ForgeMush.Attribution
import ForgeMush.Validation
import ForgeMush.Malformed
import ForgeMush.Stripping
import ForgeMush.Strings
import ForgeMush.Forgetting
import ForgeMush.Concatenation
import ForgeMush.Redecoding
import ForgeMush.Grammar
import ForgeMush.Numbering
import ForgeMush.HandOff
import ForgeMush.Restart
import ForgeMush.Dereference
import ForgeMush.Amplification
import ForgeMush.Definitions
import ForgeMush.Memory
import ForgeMush.Pausing
import ForgeMush.CoreMain
import ForgeMush.Roster
import ForgeMush.Termination
import ForgeMush.PortalMain
