import OpenLustre.Cli.Golden
import OpenLustre.Cli.Mcdc
import OpenLustre.CliteEmit.Declarations
import OpenLustre.CliteEmit.Scopes
import OpenLustre.CliteEmit.Verdict
import OpenLustre.CocospecEmit.Bounded
import OpenLustre.CocospecEmit.Twins
import OpenLustre.ContractCheck.Assumption
import OpenLustre.ContractCheck.Vacuity
import OpenLustre.Ir.Order
import OpenLustre.Ir.Refinement
import OpenLustre.Ir.Slice
import OpenLustre.LustreEmit.RoundTrip
import OpenLustre.NativeProject.Cycles
import OpenLustre.NativeProject.Mangling
import OpenLustre.NativeProject.Pinning
import OpenLustre.Sim.Automaton
import OpenLustre.Sim.Constants
import OpenLustre.Sim.Instances
import OpenLustre.Sim.Isolation
import OpenLustre.Sim.Recursion
import OpenLustre.Sim.RoundTrip
import OpenLustre.Sim.Schedule
import OpenLustre.Sim.Transparency
import OpenLustre.Sim.Visits
import OpenLustre.Stdlib.Totality
import OpenLustre.Studio.Atomicity
import OpenLustre.Studio.Concurrent
import OpenLustre.Studio.Entry
import OpenLustre.Studio.Lockstep
import OpenLustre.Typecheck.Causality
import OpenLustre.CocospecEmit.Interval
import OpenLustre.Ir.Kept
import OpenLustre.Sim.Agreement
import OpenLustre.Sim.Library
