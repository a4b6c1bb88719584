import ServerFlow.Ratelimit.AllOrNothing
import ServerFlow.Ratelimit.RetryAfter
import ServerFlow.Ratelimit.ScriptDoubles
import ServerFlow.Ratelimit.Parity
import ServerFlow.Resilience.Tickets
import ServerFlow.Resilience.CoolDown
import ServerFlow.Resilience.Refinement
import ServerFlow.Resilience.Admission
import ServerFlow.Resilience.BudgetPrune
import ServerFlow.Resilience.QueueBooks
import ServerFlow.Resilience.QueueOrder
import ServerFlow.Signals.OverlayRefinement
import ServerFlow.Gateway.RouterAccounting
import ServerFlow.Gateway.RouterLedger
import ServerFlow.Api.ChatReaders
import ServerFlow.Auth.Key
import ServerFlow.Auth.Revocation
import ServerFlow.Usage.Delivery
import ServerFlow.Events.Accounting
import ServerFlow.Sim.Stepwise
import ServerFlow.Sim.EventRefinement
import ServerFlow.ControlPlane.DrainFinality
import ServerFlow.ControlPlane.AgedView
import ServerFlow.Gateway.SnapshotSync
import ServerFlow.Gateway.Reservation
import ServerFlow.Gateway.UsageObject
import ServerFlow.Gateway.TransitionsOrder
import ServerFlow.Gateway.PhaseGuard
import ServerFlow.Gateway.BodyPeek
