import Flock.AgentList
import Flock.Main
import Flock.Proofs.Cursor.Forever
import Flock.Proofs.Cursor.Skip
import Flock.Proofs.Cursor.WellFormed
import Flock.Proofs.Grid.Measured
import Flock.Proofs.Simulation.Atomic
import Flock.Proofs.Simulation.Clock
import Flock.Proofs.World.Exact
import Flock.Proofs.World.Finite
import Flock.Proofs.World.Headless
import Flock.Proofs.World.Order
import Flock.Report
import Flock.Scenario.Format
import Flock.Simulation
import Flock.Proofs.Program.Session
import Flock.Proofs.World.Register
import Flock.Proofs.Simulation.Resume
import Flock.Proofs.Simulation.History
import Flock.Proofs.Simulation.TickCount
import Flock.Proofs.Agent.Retry
import Flock.Proofs.Agent.Waiting
import Flock.Proofs.Meaning.Duration
import Flock.Proofs.Scenario.RoundTrip
import Flock.Proofs.World.Following
import Flock.Proofs.Program.Forest
import Flock.Proofs.Program.Statistics
import Flock.Proofs.Program.Listing
import Flock.Proofs.Grid.History
import Flock.Proofs.Grid.Relation
import Flock.Proofs.Simulation.Report
import Flock.Proofs.AgentList.Grammar
