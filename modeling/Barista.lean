import Barista.Main
import Barista.Cycle.Scripted
import Barista.Session
import Barista.Proofs.Binary64.Arithmetic
import Barista.Proofs.Binary64.Bounds
import Barista.Proofs.Binary64.Climb
import Barista.Proofs.Binary64.Distance
import Barista.Proofs.Binary64.Halves
import Barista.Proofs.Binary64.Integers
import Barista.Proofs.Binary64.Stall
import Barista.Proofs.CommandLine.Brew
import Barista.Proofs.Cycle.Bound
import Barista.Proofs.Cycle.Cleaning
import Barista.Proofs.Cycle.Heating
import Barista.Proofs.Cycle.HeatingVariant
import Barista.Proofs.Cycle.Judgement
import Barista.Proofs.Cycle.Limit
import Barista.Proofs.Cycle.Run
import Barista.Proofs.Cycle.SelfTest
import Barista.Proofs.Cycle.Termination
import Barista.Proofs.Cycle.Trace
import Barista.Proofs.Cycle.Verdict
import Barista.Proofs.Cycle.WholeDegrees
import Barista.Proofs.Cycle.WholePercents
import Barista.Proofs.Machine.Timer
import Barista.Proofs.Machine.Wear
import Barista.Proofs.Requests.Conditions
import Barista.Proofs.Requests.Effects
import Barista.Proofs.Requests.Independence
import Barista.Proofs.Requests.Ledger
import Barista.Proofs.Requests.Operability
import Barista.Proofs.Requests.Preconditions
import Barista.Proofs.Requests.Recovery
import Barista.Proofs.Requests.ServiceCalls
import Barista.Proofs.Sessions.BrewLock
import Barista.Proofs.Sessions.Consistency
import Barista.Proofs.WeakestPrecondition.Verdict
import Barista.Proofs.Requests.Overflow
import Barista.Proofs.Requests.BrewLoop
import Barista.Proofs.WeakestPrecondition.BrewTime
import Barista.Proofs.WeakestPrecondition.Consistency
import Barista.Proofs.Conditions.Insertion
import Barista.Proofs.Cycle.RandomSelfTest
import Barista.Proofs.Requests.Refilling
import Barista.Proofs.Text.Names
