import SpinGlass.Hamiltonian
import SpinGlass.Lib.KeepFirst
import SpinGlass.Reading
import SpinGlass.Incidence
import SpinGlass.Energy
import SpinGlass.Annealing
import SpinGlass.Runs
import SpinGlass.FileEnergy
import SpinGlass.Lib.Metropolis
import SpinGlass.Lib.RandomRun
import SpinGlass.Lib.ProductChain
import SpinGlass.Lib.RandomStep
import SpinGlass.Sampling
import SpinGlass.Lib.SpinProducts
import SpinGlass.RepeatedSites
import SpinGlass.Lib.Transition
import SpinGlass.SolverWrapper
import SpinGlass.Accounting
import SpinGlass.Repetitions
import SpinGlass.Progress
import SpinGlass.Completion
import SpinGlass.Console
import SpinGlass.Quitting
import SpinGlass.LifeCycle
import SpinGlass.Registry
import SpinGlass.FileIncidence
import SpinGlass.Reports
import SpinGlass.Sweeps
import SpinGlass.Gauge
import SpinGlass.History
import SpinGlass.Launching
import SpinGlass.Lib.Lehmer
import SpinGlass.Seeding
import SpinGlass.Lib.Delimiters
import SpinGlass.Spacing
import SpinGlass.Lib.Decimal
import SpinGlass.ResultFile
import SpinGlass.Lib.IntegerCouplings
import SpinGlass.IntegerEnergies
import SpinGlass.Reordering
import SpinGlass.Lib.Frustration
import SpinGlass.EnergyBounds
import SpinGlass.Lib.Network
import SpinGlass.Cluster
import SpinGlass.Joining
import SpinGlass.Serving
import SpinGlass.Calling
import SpinGlass.Delivery
import SpinGlass.Distribution
import SpinGlass.Pipeline
import SpinGlass.Analysis
import SpinGlass.Lib.Words
import SpinGlass.Commands
import SpinGlass.Polling
import SpinGlass.Admitting
import SpinGlass.Finishing
import SpinGlass.RunLaw
import SpinGlass.IndependentParts
import SpinGlass.GroundStates
