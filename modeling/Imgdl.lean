import Imgdl.WakeUps
import Imgdl.Leftovers
import Imgdl.DistinctNames
import Imgdl.Cancellation
import Imgdl.Origin
import Imgdl.HostLoad
import Imgdl.TwoLevels
import Imgdl.ReportedRetries
import Imgdl.RetryLoop
import Imgdl.CrossHost
import Imgdl.RedirectTargets
import Imgdl.FreshAnswers
import Imgdl.Outcomes
import Imgdl.PythonConfig
import Imgdl.Backoff
import Imgdl.Causes
import Imgdl.SummaryHosts
import Imgdl.Accounting
import Imgdl.HeaderNames
import Imgdl.ConnectionLoad
import Imgdl.Directory
import Imgdl.Completion
import Imgdl.PythonProcess
import Imgdl.RequestBudget
import Imgdl.LostHosts
