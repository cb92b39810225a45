import Lapligence.Constraints.Layers
import Lapligence.Constraints.Exact
import Lapligence.Scheduler.SwitchResult
import Lapligence.Scheduler.SemaphoreRun
import Lapligence.Scheduler.MailboxRun
import Lapligence.Scheduler.PathOutputs
import Lapligence.Value.Decimals
import Lapligence.Value.Canonicity
import Lapligence.Value.StrengthViews
import Lapligence.Container.AssocRun
import Lapligence.Container.Shuffle
import Lapligence.Container.Unique
import Lapligence.Coverage.Shares
import Lapligence.Value.Plans
import Lapligence.Scheduler.NetAliases
import Lapligence.Scheduler.Time
import Lapligence.Lowering.ReturnFlow
