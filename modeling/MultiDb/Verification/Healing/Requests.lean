import MultiDb.Verification.Healing.Ticks

/-!
# The requests of a tick

After its probes a tick makes a sequence of requests to the backend, and stops at the first one
that is refused.
-/

namespace MultiDb

open Shared

variable {next : Healing Unit}

/-- What a tick asks of the cluster: its quorum, or one action. -/
inductive HealingRequest
  | quorum
  | call (action : HealingAction)

def questionsOf (script : List HealingRequest) : ℕ :=
  script.countP fun
    | .quorum => true
    | .call _ => false

def callsOf (script : List HealingRequest) : ℕ :=
  script.countP fun
    | .quorum => false
    | .call _ => true

section Script

variable (t : HealingTick) (view : HealthView)

/-- All requests of a script are granted, from the given numbers of questions and calls on. -/
def Granted : ℕ → ℕ → List HealingRequest → Prop
  | _, _, [] => True
  | questions, calls, .quorum :: script =>
    t.hasWriteQuorum questions view = true ∧ Granted (questions + 1) calls script
  | questions, calls, .call _ :: script =>
    t.answers calls = .ok () ∧ Granted questions (calls + 1) script

/-- The calls the script makes: it stops at a refused quorum or a failed call. -/
def callsMade : ℕ → ℕ → List HealingRequest → List (HealingAction × ReplResult Unit)
  | _, _, [] => []
  | questions, calls, .quorum :: script =>
    if t.hasWriteQuorum questions view then callsMade (questions + 1) calls script else []
  | questions, calls, .call action :: script =>
    (action, t.answers calls) ::
      if t.answers calls = .ok () then callsMade questions (calls + 1) script else []

variable {t view} {questions calls : ℕ} {script script' : List HealingRequest}
  {action : HealingAction}

theorem granted_append : Granted t view questions calls (script ++ script') ↔
    Granted t view questions calls script ∧
      Granted t view (questions + questionsOf script) (calls + callsOf script) script' := by
  induction script generalizing questions calls with
  | nil => simp [Granted, questionsOf, callsOf]
  | cons request script ih =>
    cases request with
    | quorum => simp [Granted, questionsOf, callsOf, ih, and_assoc, Nat.add_assoc, Nat.add_comm]
    | call action =>
      simp [Granted, questionsOf, callsOf, ih, and_assoc, Nat.add_assoc, Nat.add_comm]

theorem callsMade_append_of_granted (h : Granted t view questions calls script) :
    callsMade t view questions calls (script ++ script') =
      callsMade t view questions calls script ++
        callsMade t view (questions + questionsOf script) (calls + callsOf script) script' := by
  induction script generalizing questions calls with
  | nil => simp [callsMade, questionsOf, callsOf]
  | cons request script ih =>
    cases request with
    | quorum =>
      obtain ⟨hquorum, hrest⟩ := h
      simp [callsMade, hquorum, ih hrest, questionsOf, callsOf, Nat.add_assoc, Nat.add_comm]
    | call action =>
      obtain ⟨hanswer, hrest⟩ := h
      simp [callsMade, hanswer, ih hrest, questionsOf, callsOf, Nat.add_assoc, Nat.add_comm]

theorem callsMade_append_of_refused (h : ¬ Granted t view questions calls script) :
    callsMade t view questions calls (script ++ script') =
      callsMade t view questions calls script := by
  induction script generalizing questions calls with
  | nil => simp [Granted] at h
  | cons request script ih =>
    cases request with
    | quorum =>
      rw [List.cons_append, callsMade, callsMade]
      split
      · rename_i hquorum
        exact ih fun hrest => h ⟨hquorum, hrest⟩
      · rfl
    | call action =>
      rw [List.cons_append, callsMade, callsMade]
      split
      · rename_i hanswer
        rw [ih fun hrest => h ⟨hanswer, hrest⟩]
      · rfl

theorem length_callsMade (h : Granted t view questions calls script) :
    (callsMade t view questions calls script).length = callsOf script := by
  induction script generalizing questions calls with
  | nil => rfl
  | cons request script ih =>
    cases request with
    | quorum =>
      rw [callsMade, if_pos h.1, ih h.2]
      simp [callsOf]
    | call action =>
      rw [callsMade, if_pos h.1, List.length_cons, ih h.2]
      simp [callsOf]

/-- A call is made when everything before it was granted. -/
theorem mem_callsMade {answer : ReplResult Unit} :
    (action, answer) ∈ callsMade t view questions calls script ↔
      ∃ before after, script = before ++ .call action :: after ∧
        Granted t view questions calls before ∧ answer = t.answers (calls + callsOf before) := by
  induction script generalizing questions calls with
  | nil => simp [callsMade]
  | cons request script ih =>
    cases request with
    | quorum =>
      rw [callsMade]
      constructor
      · intro hmem
        split at hmem
        · rename_i hquorum
          obtain ⟨before, after, rfl, hgranted, hanswer⟩ := ih.mp hmem
          exact ⟨.quorum :: before, after, rfl, ⟨hquorum, hgranted⟩, by
            simpa [callsOf] using hanswer⟩
        · contradiction
      · rintro ⟨before, after, hscript, hgranted, hanswer⟩
        cases before with
        | nil => simp at hscript
        | cons first before =>
          obtain ⟨rfl, rfl⟩ := List.cons.inj hscript
          rw [if_pos hgranted.1]
          exact ih.mpr ⟨before, after, rfl, hgranted.2, by simpa [callsOf] using hanswer⟩
    | call other =>
      rw [callsMade, List.mem_cons]
      constructor
      · rintro (hfirst | hmem)
        · cases hfirst
          exact ⟨[], script, rfl, trivial, rfl⟩
        · split at hmem
          · rename_i hother
            obtain ⟨before, after, rfl, hgranted, hanswer⟩ := ih.mp hmem
            refine ⟨.call other :: before, after, rfl, ⟨hother, hgranted⟩, ?_⟩
            rw [hanswer]
            simp [callsOf, Nat.add_assoc, Nat.add_comm]
          · contradiction
      · rintro ⟨before, after, hscript, hgranted, rfl⟩
        cases before with
        | nil =>
          obtain ⟨hother, -⟩ := List.cons.inj hscript
          obtain rfl := HealingRequest.call.inj hother
          exact .inl rfl
        | cons first before =>
          obtain ⟨rfl, rfl⟩ := List.cons.inj hscript
          rw [if_pos hgranted.1]
          refine .inr (ih.mpr ⟨before, after, rfl, hgranted.2, ?_⟩)
          simp [callsOf, Nat.add_assoc, Nat.add_comm]

end Script

/-! ## Performing a script -/

/-- A run that makes the requests of a script, from the given questions and calls on. -/
structure Performs (t : HealingTick) (view : HealthView) (script : List HealingRequest)
    (questions : ℕ)
    (calls : List (HealingAction × ReplResult Unit)) (run : Except HealingError Unit × TickState) :
    Prop where
  ok_iff : run.1 = .ok () ↔ Granted t view questions calls.length script
  calls_eq : run.2.calls = calls ++ callsMade t view questions calls.length script
  questions_eq : run.1 = .ok () → run.2.questions = questions + questionsOf script

section Performs

variable {t : HealingTick} {view : HealthView} {script script' : List HealingRequest}
  {questions : ℕ}
  {calls : List (HealingAction × ReplResult Unit)} {run : Except HealingError Unit × TickState}

theorem performs_nil (t : HealingTick) (view : HealthView) (state : TickState) :
    Performs t view [] state.questions state.calls (.ok (), state) where
  ok_iff := by simp [Granted]
  calls_eq := by simp [callsMade]
  questions_eq _ := rfl

/-- Scripts performed in turn are one script. -/
theorem Performs.andThen {next : TickState → Except HealingError Unit × TickState}
    (h : Performs t view script questions calls run)
    (hnext : run.1 = .ok () → Performs t view script' run.2.questions run.2.calls (next run.2)) :
    Performs t view (script ++ script') questions calls (Stateful.andThen run fun _ => next) := by
  obtain ⟨result, state'⟩ := run
  cases result with
  | error e =>
    have hrefused : ¬ Granted t view questions calls.length script := by
      rw [← h.ok_iff]
      simp
    refine ⟨?_, ?_, by simp⟩
    · rw [granted_append, Stateful.andThen_error]
      simp [hrefused]
    · rw [callsMade_append_of_refused hrefused]
      exact h.calls_eq
  | ok _ =>
    have hgranted := h.ok_iff.mp rfl
    have hquestions := h.questions_eq rfl
    have hlength : state'.calls.length = calls.length + callsOf script := by
      rw [h.calls_eq, List.length_append, length_callsMade hgranted]
    obtain ⟨hok, hcalls, hquestions'⟩ := hnext rfl
    rw [hquestions, hlength] at hok hcalls
    rw [hquestions] at hquestions'
    refine ⟨?_, ?_, fun hresult => ?_⟩
    · rw [granted_append, and_iff_right hgranted]
      exact hok
    · rw [callsMade_append_of_granted hgranted, ← List.append_assoc, ← h.calls_eq]
      exact hcalls
    · rw [Stateful.andThen_ok] at hresult ⊢
      rw [hquestions' hresult, questionsOf, questionsOf, questionsOf, List.countP_append,
        Nat.add_assoc]

theorem performs_call (t : HealingTick) (view : HealthView) (action : HealingAction)
    (state : TickState) :
    Performs t view [.call action] state.questions state.calls ((t.call action).exec state) := by
  simp only [HealingTick.call, Stateful.exec_bind, Stateful.exec_get, Stateful.andThen_ok,
    Stateful.exec_set, Stateful.exec_lift]
  cases hanswer : t.answers state.calls.length with
  | ok _ =>
    exact ⟨by simp [Granted, hanswer, Except.mapError], by
      simp [callsMade, hanswer, Except.mapError], by simp [questionsOf, Except.mapError]⟩
  | error e =>
    exact ⟨by simp [Granted, hanswer, Except.mapError], by
      simp [callsMade, hanswer, Except.mapError], by simp [Except.mapError]⟩

theorem controller_call (t : HealingTick) (action : HealingAction) (state : TickState) :
    ((t.call action).exec state).2.controller = state.controller := by
  simp only [HealingTick.call, Stateful.exec_bind, Stateful.exec_get, Stateful.andThen_ok,
    Stateful.exec_set, Stateful.exec_lift]
  cases t.answers state.calls.length <;> rfl

theorem performs_call_bind {action : HealingAction}
    {state : TickState} (hnext : ∀ state' : TickState, state'.controller = state.controller →
      Performs t view script state'.questions state'.calls (next.exec state')) :
    Performs t view (.call action :: script) state.questions state.calls
      ((t.call action >>= fun _ => next).exec state) := by
  rw [Stateful.exec_bind]
  exact (performs_call t view action state).andThen fun _ => hnext _
    (controller_call t action state)

theorem controller_call_bind {action : HealingAction}
    (hnext : ∀ state, (next.exec state).2.controller = state.controller) (state : TickState) :
    ((t.call action >>= fun _ => next).exec state).2.controller = state.controller := by
  have hcall := controller_call t action state
  rw [Stateful.exec_bind]
  generalize (t.call action).exec state = run at hcall ⊢
  obtain ⟨result, state'⟩ := run
  cases result with
  | error e => exact hcall
  | ok _ => exact (hnext state').trans hcall

end Performs

/-! ## The scripts of a tick -/

/-- The requests that bring in one replacement. -/
def replacementScript (policy : HealingPolicy) : List RaftNode → List HealingRequest
  | [] => []
  | replacement :: _ =>
    [.call (.addReplacementLearner replacement), .call (.resyncNode replacement.id)] ++
      if policy.promoteOnlyWhenCaughtUp then [.call (.promoteLearner replacement.id)] else []

/-- The requests that evict the dead nodes in turn. -/
def evictionScript (policy : HealingPolicy) : List RaftNode → List NodeId → List HealingRequest
  | _, [] => []
  | pool, node :: nodes =>
    if policy.maxParallelResyncs > 0 then
      [.quorum, .call (.evictDeadNode node)] ++ replacementScript policy pool ++
        evictionScript policy pool.tail nodes
    else
      [.quorum, .call (.evictDeadNode node)] ++ evictionScript policy pool nodes

/-- The requests that repair the given nodes. -/
def repairScript (nodes : List NodeId) : List HealingRequest :=
  nodes.flatMap fun node => [.call (.deliverApHints node), .call (.runApAntiEntropy node)]

/-- Evictions change the nodes planned for dead and the pool only. -/
structure Plans (nodes : List NodeId) (controller controller' : HealingController) : Prop where
  mode : controller'.mode = controller.mode
  config : controller'.config = controller.config
  policy : controller'.policy = controller.policy
  health : controller'.health = controller.health
  planned : ∀ node, node ∈ controller'.plannedDead →
    node ∈ controller.plannedDead ∨ node ∈ nodes
  kept : ∀ node ∈ controller.plannedDead, node ∈ controller'.plannedDead

theorem plans_refl (nodes : List NodeId) (controller : HealingController) :
    Plans nodes controller controller :=
  ⟨rfl, rfl, rfl, rfl, fun _ => .inl, fun _ => id⟩

theorem Plans.mono {nodes nodes' : List NodeId} {controller controller' : HealingController}
    (h : Plans nodes controller controller') (hsub : nodes ⊆ nodes') :
    Plans nodes' controller controller' :=
  { h with planned := fun node hnode => (h.planned node hnode).imp id fun hmem => hsub hmem }

theorem Plans.trans {node : NodeId} {nodes : List NodeId} {a b c : HealingController}
    (h : Plans [node] a b) (h' : Plans nodes b c) : Plans (node :: nodes) a c where
  mode := h'.mode.trans h.mode
  config := h'.config.trans h.config
  policy := h'.policy.trans h.policy
  health := h'.health.trans h.health
  planned other hother := by
    rcases h'.planned other hother with hother | hother
    · exact (h.planned other hother).imp id fun hmem => by simp [List.mem_singleton.mp hmem]
    · exact .inr (List.mem_cons_of_mem _ hother)
  kept other hother := h'.kept other (h.kept other hother)

theorem evictionScript_cons (policy : HealingPolicy) (pool : List RaftNode) (node : NodeId)
    (nodes : List NodeId) :
    evictionScript policy pool (node :: nodes) = evictionScript policy pool [node] ++
      evictionScript policy (if policy.maxParallelResyncs > 0 then pool.tail else pool) nodes := by
  rw [evictionScript, evictionScript]
  split <;> simp [evictionScript]

section Scripts

variable {t : HealingTick} {view : HealthView} {state : TickState} {node : NodeId}

/-- A replacement makes the calls of its script. -/
theorem performs_planOneReplacement (t : HealingTick) (view : HealthView) (state : TickState) :
    Performs t view (replacementScript state.controller.policy state.controller.replacementPool)
        state.questions state.calls (t.planOneReplacement.exec state) ∧
      (t.planOneReplacement.exec state).2.controller =
        { state.controller with replacementPool := state.controller.replacementPool.tail } := by
  rw [HealingTick.planOneReplacement, Stateful.exec_bind, Stateful.exec_get, Stateful.andThen_ok]
  cases hpool : state.controller.replacementPool with
  | nil =>
    refine ⟨performs_nil t view state, ?_⟩
    have htail : state.controller.replacementPool.tail = state.controller.replacementPool := by
      rw [hpool, List.tail_nil]
    simp only [Stateful.exec_pure, ← hpool, htail]
  | cons replacement pool =>
    rw [Stateful.exec_bind, Stateful.exec_set, Stateful.andThen_ok, replacementScript]
    set state₁ : TickState :=
      { state with controller := { state.controller with replacementPool := pool } }
    constructor
    · change Performs t view _ state₁.questions state₁.calls _
      refine performs_call_bind fun _ _ => performs_call_bind fun state' _ => ?_
      split
      · exact performs_call t view _ state'
      · exact performs_nil t view state'
    · refine controller_call_bind (controller_call_bind fun state' => ?_) _
      split
      · exact controller_call t _ state'
      · rfl

theorem performs_askQuorum (t : HealingTick) (view : HealthView) (state : TickState)
    {script : List HealingRequest} {run : Except HealingError Unit × TickState}
    (hrun : run = (t.askQuorum view >>= fun quorum =>
      if !quorum then throw .noQuorum else next).exec state)
    (hnext : Performs t view script (state.questions + 1) state.calls
      (next.exec { state with questions := state.questions + 1 })) :
    Performs t view (.quorum :: script) state.questions state.calls run := by
  subst hrun
  simp only [HealingTick.askQuorum, Stateful.exec_bind, Stateful.exec_get, Stateful.exec_set,
    Stateful.exec_pure, Stateful.andThen_ok]
  cases hquorum : t.hasWriteQuorum state.questions view with
  | false =>
    exact ⟨by simp [Granted, hquorum], by simp [callsMade, hquorum], by simp⟩
  | true =>
    obtain ⟨hok, hcalls, hquestions⟩ := hnext
    refine ⟨?_, ?_, fun hresult => ?_⟩
    · rw [Granted, and_iff_right hquorum]
      exact hok
    · rw [callsMade, if_pos hquorum]
      exact hcalls
    · refine (hquestions hresult).trans ?_
      simp [questionsOf, Nat.add_assoc, Nat.add_comm]

/-- Planning a dead node makes the calls of its script. -/
theorem performs_planDeadNode (t : HealingTick) (view : HealthView)
    (hmode : state.controller.mode = .cp) (hplanned : node ∉ state.controller.plannedDead) :
    Performs t view (evictionScript state.controller.policy state.controller.replacementPool [node])
        state.questions state.calls ((t.planDeadNode view node).exec state) ∧
      Plans [node] state.controller ((t.planDeadNode view node).exec state).2.controller ∧
      (((t.planDeadNode view node).exec state).1 = .ok () →
        ((t.planDeadNode view node).exec state).2.controller.replacementPool =
          if state.controller.policy.maxParallelResyncs > 0 then
            state.controller.replacementPool.tail
          else state.controller.replacementPool) := by
  have hneeded : ¬ (state.controller.mode ≠ .cp ∨ state.controller.plannedDead.contains node) := by
    simp [hmode, hplanned]
  rw [HealingTick.planDeadNode, Stateful.exec_bind, Stateful.exec_get, Stateful.andThen_ok,
    if_neg hneeded]
  refine ⟨?_, ?_⟩
  · have hscript : evictionScript state.controller.policy state.controller.replacementPool [node] =
        .quorum :: .call (.evictDeadNode node) ::
          if state.controller.policy.maxParallelResyncs > 0 then
            replacementScript state.controller.policy state.controller.replacementPool
          else [] := by
      rw [evictionScript]
      split <;> simp [evictionScript]
    rw [hscript]
    refine performs_askQuorum t view state rfl ?_
    set state₁ : TickState := { state with questions := state.questions + 1 }
    change Performs t view _ state₁.questions state₁.calls _
    refine performs_call_bind fun state' hcontroller => ?_
    rw [Stateful.exec_bind, Stateful.exec_modify, Stateful.andThen_ok]
    set state₂ : TickState := { state' with
      controller := { state'.controller with
        plannedDead := state'.controller.plannedDead.insert node } } with hstate₂
    change Performs t view _ state₂.questions state₂.calls _
    split
    · have hreplace := (performs_planOneReplacement t view state₂).1
      have hsame : state₂.controller.policy = state.controller.policy ∧
          state₂.controller.replacementPool = state.controller.replacementPool := by
        rw [hstate₂]
        simp [hcontroller, state₁]
      rwa [hsame.1, hsame.2] at hreplace
    · exact performs_nil t view state₂
  · simp only [HealingTick.askQuorum, Stateful.exec_bind, Stateful.exec_get, Stateful.exec_set,
      Stateful.exec_pure, Stateful.andThen_ok]
    cases t.hasWriteQuorum state.questions view with
    | false => exact ⟨plans_refl _ _, by simp⟩
    | true =>
      simp only [Bool.not_true, Bool.false_eq_true, if_false, Stateful.exec_bind]
      have hcall := controller_call t (.evictDeadNode node)
        { state with questions := state.questions + 1 }
      generalize (t.call (.evictDeadNode node)).exec
        { state with questions := state.questions + 1 } = run at hcall ⊢
      obtain ⟨result, state'⟩ := run
      replace hcall : state'.controller = state.controller := hcall
      have hplans : ∀ pool, Plans [node] state.controller { state'.controller with
          plannedDead := state'.controller.plannedDead.insert node, replacementPool := pool } := by
        intro pool
        rw [hcall]
        refine ⟨rfl, rfl, rfl, rfl, fun other hother => ?_, fun other hother => ?_⟩
        · rcases Std.ExtTreeSet.mem_insert.mp hother with heq | hother
          · exact .inr (by simp [Std.LawfulEqOrd.eq_of_compare heq])
          · exact .inl hother
        · exact Std.ExtTreeSet.mem_insert.mpr (.inr hother)
      cases result with
      | error e => exact ⟨hcall ▸ plans_refl _ _, by simp⟩
      | ok _ =>
        rw [Stateful.andThen_ok, Stateful.exec_bind, Stateful.exec_modify, Stateful.andThen_ok]
        split
        · rw [(performs_planOneReplacement t view _).2]
          exact ⟨hplans _, fun _ => by rw [hcall]⟩
        · exact ⟨hplans state'.controller.replacementPool, fun _ => by
            rw [Stateful.exec_pure, hcall]⟩

/-- Planning the dead nodes makes the calls of their scripts in turn. -/
theorem performs_planDeadNodes (t : HealingTick) (view : HealthView) {nodes : List NodeId}
    (hmode : state.controller.mode = .cp)
    (hnodup : nodes.Nodup) (hplanned : ∀ node ∈ nodes, node ∉ state.controller.plannedDead) :
    Performs t view (evictionScript state.controller.policy state.controller.replacementPool nodes)
        state.questions state.calls ((t.planDeadNodes nodes view).exec state) ∧
      Plans nodes state.controller ((t.planDeadNodes nodes view).exec state).2.controller := by
  induction nodes generalizing state with
  | nil => exact ⟨performs_nil t view state, plans_refl _ _⟩
  | cons node nodes ih =>
    rw [List.nodup_cons] at hnodup
    obtain ⟨hfirst, hplans, hpool⟩ :=
      performs_planDeadNode t view hmode (hplanned node List.mem_cons_self)
    rw [HealingTick.planDeadNodes, Stateful.exec_forM_cons, evictionScript_cons]
    generalize (t.planDeadNode view node).exec state = run at hfirst hplans hpool ⊢
    obtain ⟨result, state'⟩ := run
    have hrest : result = .ok () → _ := fun hresult =>
      ih (hplans.mode.trans hmode) hnodup.2 fun other hother hmem => by
        rcases hplans.planned other hmem with hmem | hmem
        · exact hplanned other (List.mem_cons_of_mem _ hother) hmem
        · exact hnodup.1 (List.mem_singleton.mp hmem ▸ hother)
    constructor
    · refine hfirst.andThen fun hresult => ?_
      have hnext := (hrest hresult).1
      rwa [hplans.policy, hpool hresult] at hnext
    · cases result with
      | error e => exact hplans.mono (by simp)
      | ok _ => exact hplans.trans (hrest rfl).2

/-- Planning the recovered nodes makes the calls of the repair script. -/
theorem performs_planRecoveredNodes (t : HealingTick) (view : HealthView) (nodes : List NodeId)
    (state : TickState) :
    Performs t view (repairScript nodes) state.questions state.calls
        ((nodes.forM t.planRecoveredNode).exec state) ∧
      ((nodes.forM t.planRecoveredNode).exec state).2.controller = state.controller := by
  induction nodes generalizing state with
  | nil => exact ⟨performs_nil t view state, rfl⟩
  | cons node nodes ih =>
    have hfirst : Performs t view [.call (.deliverApHints node), .call (.runApAntiEntropy node)]
        state.questions state.calls ((t.planRecoveredNode node).exec state) :=
      performs_call_bind fun state' _ => performs_call t view _ state'
    have hcontroller : ((t.planRecoveredNode node).exec state).2.controller = state.controller :=
      controller_call_bind (fun state' => controller_call t _ state') state
    rw [Stateful.exec_forM_cons]
    generalize (t.planRecoveredNode node).exec state = run at hfirst hcontroller ⊢
    obtain ⟨result, state'⟩ := run
    constructor
    · exact hfirst.andThen fun _ => (ih state').1
    · cases result with
      | error e => exact hcontroller
      | ok _ => exact (ih state').2.trans hcontroller

end Scripts

/-! ## Ticks -/

/-- The state after the probes of a tick. -/
def HealingController.probed (controller : HealingController) (t : HealingTick) : TickState :=
  ((t.probes.forM t.probeNode).exec { controller }).2

def HealingController.viewAfter (controller : HealingController) (t : HealingTick) : HealthView :=
  (controller.probed t).controller.healthView

/-- The nodes a tick declares dead. -/
def HealingController.newlyDead (controller : HealingController) (t : HealingTick) : List NodeId :=
  ((reached t.probes).filter (controller.marks t.now)).map Prod.fst

/-- The planned nodes a tick sees alive again. -/
def HealingController.recovered (controller : HealingController) (t : HealingTick) : List NodeId :=
  ((reached t.probes).filter controller.recovers).map Prod.fst

section Tick

variable {controller : HealingController} {t : HealingTick}

theorem observed_probed (hids : controller.OwnIds) :
    Observed controller t.now (reached t.probes) (controller.probed t) ∧
      (((t.probes.forM t.probeNode).exec { controller }).1 = .ok () ↔ t.ProbesReturn) := by
  obtain ⟨result, state, hexec, hobserved, hresult⟩ :=
    exec_probeNodes (t := t) t.probes hids (by simpa using t.distinct)
      (observed_nil controller t.now)
  rw [HealingController.probed, hexec]
  exact ⟨hobserved, hresult⟩

theorem exec_record (t : HealingTick) (indices : List ℕ) (state : TickState) :
    ((indices.forM fun i => (liftM ((t.recorded i).mapError HealingError.repl) : Healing Unit)).exec
      state).2 = state := by
  induction indices with
  | nil => rfl
  | cons i indices ih =>
    rw [Stateful.exec_forM_cons, Stateful.exec_lift]
    cases (t.recorded i).mapError HealingError.repl with
    | error e => rfl
    | ok _ => exact ih

theorem tickAt_of_not_probesReturn (hids : controller.OwnIds) (hprobes : ¬ t.ProbesReturn) :
    (controller.tickAt t).2 = controller.probed t := by
  have hfailed := (observed_probed (t := t) hids).2.not.mpr hprobes
  rw [HealingController.tickAt, HealingTick.run, Stateful.exec_bind, HealingController.probed]
  generalize (t.probes.forM t.probeNode).exec { controller } = run at hfailed ⊢
  obtain ⟨result, state⟩ := run
  cases result with
  | error e => rfl
  | ok _ => exact absurd rfl hfailed

theorem tickAt_of_probesReturn (hids : controller.OwnIds)
    (henabled : controller.policy.enabled = true) (hprobes : t.ProbesReturn) :
    (controller.tickAt t).2 = (Stateful.andThen
      ((t.planDeadNodes (controller.newlyDead t) (controller.viewAfter t)).exec
        (controller.probed t))
      fun _ => (t.planRecoveredApNodes (controller.recovered t)).exec).2 := by
  obtain ⟨hobserved, hok⟩ := observed_probed (t := t) hids
  have hreturned := hok.mpr hprobes
  have hexec : (t.probes.forM t.probeNode).exec { controller } = (.ok (), controller.probed t) := by
    rw [HealingController.probed, ← hreturned]
  have henabled' : (controller.probed t).controller.policy.enabled = true := by
    rw [hobserved.policy, henabled]
  rw [HealingController.tickAt, HealingTick.run, Stateful.exec_bind, hexec, Stateful.andThen_ok,
    Stateful.exec_bind, Stateful.exec_get, Stateful.andThen_ok]
  simp only [henabled', if_true, hobserved.newlyDead, hobserved.recovered]
  rw [Stateful.exec_bind]
  change (Stateful.andThen ((t.planDeadNodes (controller.newlyDead t)
    (controller.viewAfter t)).exec (controller.probed t)) _).2 = _
  rcases (t.planDeadNodes (controller.newlyDead t) (controller.viewAfter t)).exec
    (controller.probed t) with ⟨_ | _, state⟩
  · rfl
  · rw [Stateful.andThen_ok, Stateful.andThen_ok, Stateful.exec_bind]
    change (Stateful.andThen ((t.planRecoveredApNodes (controller.recovered t)).exec state) _).2 = _
    rcases (t.planRecoveredApNodes (controller.recovered t)).exec state with ⟨_ | _, state'⟩
    · rfl
    · rw [Stateful.andThen_ok, Stateful.exec_bind, Stateful.exec_get, Stateful.andThen_ok,
        Stateful.exec_bind]
      have hrecord := exec_record t (List.range state'.actions.length) state'
      generalize ((List.range state'.actions.length).forM fun i =>
        (liftM ((t.recorded i).mapError HealingError.repl) : Healing Unit)).exec state' = run
        at hrecord ⊢
      obtain ⟨result, state''⟩ := run
      cases result with
      | error e => exact hrecord
      | ok _ => exact hrecord

end Tick

end MultiDb
