import ConsistentHashLab.Python.Dict
import ConsistentHashLab.Python.Bisect
import ConsistentHashLab.Node
import ConsistentHashLab.Ring
import ConsistentHashLab.Lookup
import ConsistentHashLab.Calls
import ConsistentHashLab.Invariant
import ConsistentHashLab.Frame
import ConsistentHashLab.Canonical
import ConsistentHashLab.Exceptions
import ConsistentHashLab.Analysis
import ConsistentHashLab.Rebalance
import ConsistentHashLab.Replicas
import ConsistentHashLab.AnyRun
import ConsistentHashLab.Assignment
import ConsistentHashLab.Demo
