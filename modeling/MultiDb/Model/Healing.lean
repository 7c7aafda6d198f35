import MultiDb.Model.SingleNode
import MultiDb.Model.Versions
import MultiDb.Shared.Stateful

/-!
# Self-healing

`SelfHealingController` of `repl/healing.rs`.  The answers of the probe and of the backend are
inputs of a tick.
-/

namespace MultiDb

open Shared

inductive HealthState
  | healthy
  | suspect
  | dead
  deriving DecidableEq, Repr

/-- `HealthConfig` as a sample reads it, with its durations in nanoseconds. -/
structure HealthConfig where
  suspectAfter : ℕ := 3
  failureTimeout : ℕ := 30000000000
  recoverySamples : ℕ := 1
  cooldown : ℕ := 60000000000

structure HealingPolicy where
  enabled : Bool := true
  maxParallelResyncs : ℕ := 1
  promoteOnlyWhenCaughtUp : Bool := true

/-- `NodeHealth`; a time is in nanoseconds. -/
structure NodeHealth where
  nodeId : NodeId
  state : HealthState
  failedSamples : ℕ
  healthySamples : ℕ
  lastSeen : Option ℤ
  stateSince : ℤ

def NodeHealth.new (node : NodeId) (now : ℤ) : NodeHealth :=
  ⟨node, .healthy, 0, 0, none, now⟩

structure RaftNode where
  id : NodeId
  addr : String
  deriving DecidableEq, Repr

inductive HealingAction
  | markSuspect (node : NodeId)
  | markDead (node : NodeId)
  | evictDeadNode (node : NodeId)
  | addReplacementLearner (node : RaftNode)
  | resyncNode (node : NodeId)
  | promoteLearner (node : NodeId)
  | deliverApHints (node : NodeId)
  | runApAntiEntropy (node : NodeId)
  deriving DecidableEq, Repr

inductive HealingMode
  | cp
  | ap
  deriving DecidableEq, Repr

abbrev HealthView := Std.ExtTreeMap NodeId HealthState

/-- `u32::saturating_add(1)`. -/
def saturatingSucc (n : ℕ) : ℕ :=
  min (n + 1) (2 ^ 32 - 1)

/-- `elapsed`; a clock that has stepped back gives zero. -/
def elapsed (start stop : ℤ) : ℕ :=
  (stop - start).toNat

def recoverNode (config : HealthConfig) (now : ℤ) (health : NodeHealth) :
    NodeHealth × Option HealingAction :=
  let health := { health with
    failedSamples := 0
    healthySamples := saturatingSucc health.healthySamples
    lastSeen := some now }
  if health.state = .healthy ∨ health.healthySamples < config.recoverySamples then
    (health, none)
  else if health.state = .dead ∧ elapsed health.stateSince now < config.cooldown then
    (health, none)
  else
    ({ health with state := .healthy, stateSince := now }, none)

def failNode (config : HealthConfig) (now : ℤ) (health : NodeHealth) :
    NodeHealth × Option HealingAction :=
  let health := { health with
    healthySamples := 0
    failedSamples := saturatingSucc health.failedSamples }
  if health.state = .healthy ∧ config.suspectAfter ≤ health.failedSamples then
    ({ health with state := .suspect, stateSince := now }, some (.markSuspect health.nodeId))
  else if health.state = .suspect ∧
      config.failureTimeout ≤ elapsed (health.lastSeen.getD health.stateSince) now then
    ({ health with state := .dead, stateSince := now }, some (.markDead health.nodeId))
  else
    (health, none)

/-! ## The controller -/

/-- `SelfHealingController`, without its backend and probe. -/
structure HealingController where
  mode : HealingMode
  config : HealthConfig := {}
  policy : HealingPolicy := {}
  health : Std.ExtTreeMap NodeId NodeHealth := ∅
  replacementPool : List RaftNode := []
  plannedDead : Std.ExtTreeSet NodeId := ∅

def HealingController.healthView (controller : HealingController) : HealthView :=
  controller.health.map fun _ health => health.state

def HealingController.entry (controller : HealingController) (node : NodeId) (now : ℤ) :
    NodeHealth :=
  controller.health[node]?.getD (.new node now)

/-- The inputs of a tick: its time, and the answers to its questions in the order of asking. -/
structure HealingTick where
  now : ℤ
  probes : List (NodeId × ReplResult Bool)
  distinct : (probes.map Prod.fst).Nodup
  hasWriteQuorum : ℕ → HealthView → Bool
  answers : ℕ → ReplResult Unit
  recorded : ℕ → ReplResult Unit

inductive HealingError
  | noQuorum
  | repl (error : ReplError)
  deriving DecidableEq, Repr

/-- The controller within a tick, with the local variables of `tick_at` and the calls so far. -/
structure TickState where
  controller : HealingController
  newlyDead : List NodeId := []
  recovered : List NodeId := []
  actions : List HealingAction := []
  calls : List (HealingAction × ReplResult Unit) := []
  questions : ℕ := 0

abbrev Healing (α : Type) := Stateful HealingError TickState α

namespace HealingTick

variable (t : HealingTick)

/-- A call of the backend, which is recorded as `action` when it succeeds. -/
def call (action : HealingAction) : Healing Unit := do
  let state ← get
  let answer := t.answers state.calls.length
  set { state with calls := state.calls ++ [(action, answer)] }
  answer.mapError HealingError.repl
  modify fun state => { state with actions := state.actions ++ [action] }

/-- `has_write_quorum`. -/
def askQuorum (view : HealthView) : Healing Bool := do
  let state ← get
  set { state with questions := state.questions + 1 }
  return t.hasWriteQuorum state.questions view

def updateNodeHealth (node : NodeId) (healthy : Bool) : Healing (Option HealingAction) := do
  let state ← get
  let controller := state.controller
  let entry := controller.entry node t.now
  let (entry, transition) :=
    if healthy then recoverNode controller.config t.now entry
    else failNode controller.config t.now entry
  set { state with
    controller := { controller with health := controller.health.insert node entry } }
  return transition

/-- One node in the loop of `tick_at`. -/
def probeNode (probe : NodeId × ReplResult Bool) : Healing Unit := do
  let healthy ← probe.2.mapError HealingError.repl
  match ← t.updateNodeHealth probe.1 healthy with
  | some (.markDead node) =>
    modify fun state =>
      let controller := state.controller
      { state with
        controller := { controller with
          plannedDead := if controller.mode = .ap then controller.plannedDead.insert node
            else controller.plannedDead }
        newlyDead := state.newlyDead ++ [node]
        actions := state.actions ++ [.markDead node] }
  | some action => modify fun state => { state with actions := state.actions ++ [action] }
  | none =>
    modify fun state =>
      let controller := state.controller
      if healthy && controller.plannedDead.contains probe.1 then
        { state with
          controller := { controller with plannedDead := controller.plannedDead.erase probe.1 }
          recovered := state.recovered ++ [probe.1] }
      else
        state

def planOneReplacement : Healing Unit := do
  let state ← get
  match state.controller.replacementPool with
  | [] => return
  | replacement :: pool =>
    set { state with controller := { state.controller with replacementPool := pool } }
    t.call (.addReplacementLearner replacement)
    t.call (.resyncNode replacement.id)
    if state.controller.policy.promoteOnlyWhenCaughtUp then
      t.call (.promoteLearner replacement.id)

/-- One node in the loop of `plan_dead_nodes`. -/
def planDeadNode (view : HealthView) (node : NodeId) : Healing Unit := do
  let state ← get
  if state.controller.mode ≠ .cp ∨ state.controller.plannedDead.contains node then
    return
  else
    let quorum ← t.askQuorum view
    if !quorum then
      throw .noQuorum
    else
      t.call (.evictDeadNode node)
      modify fun state => { state with
        controller := { state.controller with
          plannedDead := state.controller.plannedDead.insert node } }
      if state.controller.policy.maxParallelResyncs > 0 then
        t.planOneReplacement

def planDeadNodes (nodes : List NodeId) (view : HealthView) : Healing Unit :=
  nodes.forM (t.planDeadNode view)

/-- One node in the loop of `plan_recovered_ap_nodes`. -/
def planRecoveredNode (node : NodeId) : Healing Unit := do
  t.call (.deliverApHints node)
  t.call (.runApAntiEntropy node)

def planRecoveredApNodes (nodes : List NodeId) : Healing Unit := do
  let state ← get
  if state.controller.mode ≠ .ap then
    return
  else
    nodes.forM t.planRecoveredNode

/-- `tick_at`. -/
def run : Healing (List HealingAction) := do
  t.probes.forM t.probeNode
  let state ← get
  let view := state.controller.healthView
  if state.controller.policy.enabled then
    t.planDeadNodes state.newlyDead view
    t.planRecoveredApNodes state.recovered
  let state ← get
  (List.range state.actions.length).forM fun i => (t.recorded i).mapError HealingError.repl
  return state.actions

end HealingTick

/-- The controller after a tick, with what the tick returned and the calls it made. -/
def HealingController.tickAt (controller : HealingController) (t : HealingTick) :
    Except HealingError (List HealingAction) × TickState :=
  t.run.exec { controller }

/-- The controller before the tick `n` of a run. -/
def HealingController.before (controller : HealingController) (ticks : ℕ → HealingTick) :
    ℕ → HealingController
  | 0 => controller
  | n + 1 => ((controller.before ticks n).tickAt (ticks n)).2.controller

end MultiDb
