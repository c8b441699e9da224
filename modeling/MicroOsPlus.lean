import MicroOsPlus.Run
import MicroOsPlus.Rtos.Links
import MicroOsPlus.Rtos.Ring
import MicroOsPlus.Rtos.OrderedLink
import MicroOsPlus.Rtos.Lists
import MicroOsPlus.Rtos.ListLaws
import MicroOsPlus.Rtos.ResumeAll
import MicroOsPlus.Rtos.StableQueue
import MicroOsPlus.Rtos.PriorityLists
import MicroOsPlus.Rtos.AppendLists
import MicroOsPlus.Rtos.Clock
import MicroOsPlus.Rtos.System
import MicroOsPlus.Rtos.SystemQueues
import MicroOsPlus.Memory
import MicroOsPlus.Memory.Ledger
