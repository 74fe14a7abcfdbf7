import OrTools.Graph.Graph
import OrTools.Graph.PriorityQueue
import OrTools.Graph.PriorityQueueSpec
import OrTools.Graph.MaxFlow.Basic
import OrTools.Graph.MaxFlow.Conservation
import OrTools.Graph.MaxFlow.Residual
import OrTools.Graph.MaxFlow.GlobalUpdate
import OrTools.Graph.MaxFlow.GlobalUpdateSpec
import OrTools.Graph.MaxFlow.Discharge
import OrTools.Graph.MaxFlow.DischargeSpec
import OrTools.Graph.MaxFlow.ExcessReturn
import OrTools.Graph.MaxFlow.Solve
import OrTools.Graph.MaxFlow.Moves
import OrTools.Graph.MaxFlow.History
import OrTools.Graph.MaxFlow.Frames
import OrTools.Graph.MaxFlow.Search
import OrTools.Graph.MaxFlow.SearchLoop
import OrTools.Graph.MaxFlow.ExcessReturnSpec
import OrTools.Graph.MaxFlow.Feasible
import OrTools.Graph.MaxFlow.Paths
import OrTools.Graph.MaxFlow.Rounds
import OrTools.Graph.MaxFlow.QueueCalls
import OrTools.Graph.MaxFlow.Reachable
import OrTools.Graph.MaxFlow.MinCut
import OrTools.Sat.Intervals
import OrTools.Sat.IntegerValue
import OrTools.Sat.Rectangle
import OrTools.Sat.EnergyConflict
import OrTools.Sat.Articulation
import OrTools.Sat.BoxesInConflict
import OrTools.Sat.FilterBoxes
import OrTools.Sat.MinimumEnergy
import OrTools.Sat.PairwiseRestrictions
import OrTools.Sat.OverlappingSets
import OrTools.Sat.PartialIntersections
import OrTools.Sat.PartialIntersectionsSpec
import OrTools.Sat.PartialIntersectionsSweep
import OrTools.Sat.CapacityProfile
import OrTools.Sat.CapacityProfileSpec
import OrTools.Sat.CapacityProfileSweep
import OrTools.Sat.ProbingRectangle
