import Slate.Runtime.TaskGraph
import Slate.Runtime.Mpi
import Slate.Hemm.Views
import Slate.Hemm.Tasks
import Slate.Hemm.Stages
import Slate.Hemm.Pipeline
import Slate.Hemm.Broadcast
import Slate.Hemm.Kernels
import Slate.Hemm.Correct
import Slate.Syrk.Targets
import Slate.Syrk.Results
import Slate.Syrk.Overlap
import Slate.Posv.Controller
import Slate.Posv.NaN
import Slate.Stedc.Layout
import Slate.Stedc.Permute
import Slate.Stedc.Program
import Slate.Stedc.Correct
import Slate.Stedc.Work
import Slate.Stedc.Protocol
