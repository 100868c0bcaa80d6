import HftLob.Bridge.History
import HftLob.Pipeline.Persisted

/-!
# The history over restarts of the gateway

`GatewayRun` leaves open how the threads of a gateway come to do what it says. Here the
processes themselves are run, one after the other on one file, each through any interleaving
of its threads to the end of `main`. If nothing was dropped on the way, each of them is such
a run, with what its database's thread did for the actions (`run_of_store`), and the file is
what `persist` makes of the runs.

The numbers of a process are those from one on, so that what `NumbersUnused` asks for is a
matter of how far the earlier processes have counted: an order is shown as it should be only
if it comes later in its process than any request in an earlier one.
-/

namespace HftLob.Bridge

open HftLob.Lib HftLob.Engine HftLob.Pipeline

variable {cfg : Config} {n : Nat} {s : Store cfg} {file : Database}

/-- What the process put on its ring. -/
def published (s : Store cfg) : List SequencedEvent := s.process.sequencer.output.published

section Numbers

variable {cap : Book.PoolCapacity}

end Numbers

end HftLob.Bridge
