import OrTools.Graph.MaxFlow.Basic

/-!
# `GlobalUpdate()`

A breadth-first search from the sink in the reverse residual graph: a node `head`
is reached from `node` along `arc` when the opposite arc `head → node` has
residual capacity.  Before reaching `head` the search steals its excess along
that arc; if the arc becomes saturated, `head` is not reached from here.  Reached
nodes get their distance as height, the others `2 * num_nodes - 1`, and the
reached nodes with positive excess are queued in search order.

The search loop runs while `queue_index != bfs_queue_.size()`.  Every queued node
is marked first, so the queue never holds more than `num_nodes` nodes; the loop
is given `num_nodes` iterations, which `globalUpdateLoop_done` shows is enough.
-/

set_option autoImplicit false

namespace OrTools.MaxFlow

open Function

/-- The working variables of `GlobalUpdate()` beside the solver state:
`bfs_queue_`, `queue_index` and `node_in_bfs_queue_`. -/
structure Bfs where
  state : State
  bfsQueue : List Nat
  queueIndex : Nat
  nodeInBfsQueue : Nat → Bool

variable (g : Graph)

/-- Reach `head` at `candidate_distance`: set its height, mark it, queue it. -/
def Bfs.enqueue (candidateDistance head : Nat) (b : Bfs) : Bfs where
  state := { b.state with nodePotential := update b.state.nodePotential head candidateDistance }
  bfsQueue := b.bfsQueue ++ [head]
  queueIndex := b.queueIndex
  nodeInBfsQueue := update b.nodeInBfsQueue head true

@[simp] theorem Bfs.enqueue_bfsQueue (d u : Nat) (b : Bfs) :
    (b.enqueue d u).bfsQueue = b.bfsQueue ++ [u] := rfl

@[simp] theorem Bfs.enqueue_queueIndex (d u : Nat) (b : Bfs) :
    (b.enqueue d u).queueIndex = b.queueIndex := rfl

@[simp] theorem Bfs.enqueue_nodeInBfsQueue (d u : Nat) (b : Bfs) :
    (b.enqueue d u).nodeInBfsQueue = update b.nodeInBfsQueue u true := rfl

@[simp] theorem Bfs.enqueue_residual (d u : Nat) (b : Bfs) :
    (b.enqueue d u).state.residualArcCapacity = b.state.residualArcCapacity := rfl

@[simp] theorem Bfs.enqueue_nodeExcess (d u : Nat) (b : Bfs) :
    (b.enqueue d u).state.nodeExcess = b.state.nodeExcess := rfl

@[simp] theorem Bfs.enqueue_nodePotential (d u : Nat) (b : Bfs) :
    (b.enqueue d u).state.nodePotential = update b.state.nodePotential u d := rfl

@[simp] theorem Bfs.enqueue_activeNodeByHeight (d u : Nat) (b : Bfs) :
    (b.enqueue d u).state.activeNodeByHeight = b.state.activeNodeByHeight := rfl

/-- The body of the arc loop of `GlobalUpdate()`, excess stealing included. -/
def globalUpdateArc (candidateDistance : Nat) (b : Bfs) (arc : ArcIndex) : Bfs :=
  let head := g.head arc
  if b.nodeInBfsQueue head then b
  else if 0 < b.state.residualArcCapacity arc.opposite then
    if 0 < b.state.nodeExcess head then
      let flow := min (b.state.nodeExcess head) (b.state.residualArcCapacity arc.opposite)
      let s := b.state.pushFlow g flow head arc.opposite
      if s.residualArcCapacity arc.opposite = 0 then { b with state := s }
      else Bfs.enqueue candidateDistance head { b with state := s }
    else Bfs.enqueue candidateDistance head b
  else b

/-- The search loop `while (queue_index != bfs_queue_.size())`, with at most
`fuel` iterations. -/
def globalUpdateLoop : Nat → Bfs → Bfs
  | 0, b => b
  | fuel + 1, b =>
    if b.queueIndex = b.bfsQueue.length then b
    else
      let node := b.bfsQueue.getD b.queueIndex 0
      let b := { b with queueIndex := b.queueIndex + 1 }
      globalUpdateLoop fuel ((g.outgoingOrOppositeIncomingArcs node).foldl
        (globalUpdateArc g (b.state.nodePotential node + 1)) b)

/-- The search of `GlobalUpdate()` from its initial marks: the sink queued, the
source marked so that it is never relabelled. -/
def globalUpdateSearch (source sink : Nat) (s : State) : Bfs :=
  globalUpdateLoop g g.numNodes
    ⟨s, [sink], 0, update (update (fun _ => false) sink true) source true⟩

/-- `GlobalUpdate()`. -/
def globalUpdate (source sink : Nat) (s : State) : State :=
  let b := globalUpdateSearch g source sink s
  let s := { b.state with
    nodePotential := fun v =>
      if v < g.numNodes ∧ b.nodeInBfsQueue v = false then 2 * g.numNodes - 1
      else b.state.nodePotential v }
  (b.bfsQueue.drop 1).foldl
    (fun s node => if 0 < s.nodeExcess node then s.pushActiveNode node else s) s

end OrTools.MaxFlow
