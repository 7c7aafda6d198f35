import Mathlib.Data.Set.Basic

/-!
# Programs that call a service

A program is a tree of requests with a continuation for every reply.  `Honest` is a weakest
precondition: each request must be permitted by what earlier replies have taught.
-/

namespace MultiDb.Shared

variable {index : ℕ}

/-- A program with requests `Req`, where request `r` is answered by a `Reply r`. -/
inductive Prog (Req : Type) (Reply : Req → Type) (ε α : Type) : Type
  | done (result : Except ε α)
  | call (request : Req) (next : Reply request → Prog Req Reply ε α)

namespace Prog

variable {Req : Type} {Reply : Req → Type} {ε α β : Type}

/-- Run one program, then the next with its value. -/
def bind : Prog Req Reply ε α → (α → Prog Req Reply ε β) → Prog Req Reply ε β
  | done (.ok a), f => f a
  | done (.error e), _ => done (.error e)
  | call request next, f => call request fun reply => (next reply).bind f

instance : Monad (Prog Req Reply ε) where
  pure a := done (.ok a)
  bind := bind

def fail (e : ε) : Prog Req Reply ε α :=
  done (.error e)

/-- Runs a program and returns its result as a value. -/
def attempt : Prog Req Reply ε α → Prog Req Reply ε (Except ε α)
  | done result => done (.ok result)
  | call request next => call request fun reply => (next reply).attempt

section Honest

variable {Fact : Type} (may : Set Fact → Req → Prop) (learn : (r : Req) → Reply r → Set Fact)

/-- Every request is permitted by the facts known so far, and `post` holds at the end. -/
def Honest (known : Set Fact) (post : Set Fact → Except ε α → Prop) :
    Prog Req Reply ε α → Prop
  | done result => post known result
  | call request next => may known request ∧
      ∀ reply, (next reply).Honest (known ∪ learn request reply) post

variable {may learn}

variable {p : Prog Req Reply ε α}

theorem Honest.mono {known : Set Fact}
    {post post' : Set Fact → Except ε α → Prop} (h : p.Honest may learn known post)
    (hpost : ∀ known' result, known ⊆ known' → post known' result → post' known' result) :
    p.Honest may learn known post' := by
  induction p generalizing known with
  | done result => exact hpost known result subset_rfl h
  | call request next ih =>
    refine ⟨h.1, fun reply => ih reply (h.2 reply) fun known' result hsub => ?_⟩
    exact hpost known' result (Set.subset_union_left.trans hsub)

theorem Honest.weaken {known known' : Set Fact}
    (hmay : ∀ {known known' r}, known ⊆ known' → may known r → may known' r)
    (hsub : known ⊆ known') (h : p.Honest may learn known fun _ _ => True) :
    p.Honest may learn known' fun _ _ => True := by
  induction p generalizing known known' with
  | done result => exact trivial
  | call request next ih =>
    exact ⟨hmay hsub h.1, fun reply => ih reply (Set.union_subset_union_left _ hsub) (h.2 reply)⟩

variable {f : α → Prog Req Reply ε β}

/-- The rule for a bind, over what holds in between. -/
theorem Honest.bind (mid : Set Fact → Except ε α → Prop) {known : Set Fact} {post : Set Fact → Except ε β → Prop}
    (hp : p.Honest may learn known mid)
    (hok : ∀ known' a, known ⊆ known' → mid known' (.ok a) → (f a).Honest may learn known' post)
    (herror : ∀ known' e, known ⊆ known' → mid known' (.error e) → post known' (.error e)) :
    (p >>= f).Honest may learn known post := by
  induction p generalizing known with
  | done result =>
    cases result with
    | ok a => exact hok known a subset_rfl hp
    | error e => exact herror known e subset_rfl hp
  | call request next ih =>
    refine ⟨hp.1, fun reply => ih reply (hp.2 reply) (fun known' a hsub => ?_)
      fun known' e hsub => ?_⟩
    · exact hok known' a (Set.subset_union_left.trans hsub)
    · exact herror known' e (Set.subset_union_left.trans hsub)

theorem Honest.seq {known : Set Fact}
    (hp : p.Honest may learn known fun _ _ => True)
    (hf : ∀ known' a, known ⊆ known' → (f a).Honest may learn known' fun _ _ => True) :
    (p >>= f).Honest may learn known fun _ _ => True :=
  .bind _ hp (fun known' a hsub _ => hf known' a hsub) fun _ _ _ _ => trivial

theorem Honest.attempt {known : Set Fact}
    (h : p.Honest may learn known fun _ _ => True) :
    p.attempt.Honest may learn known fun _ _ => True := by
  induction p generalizing known with
  | done result => exact trivial
  | call request next ih => exact ⟨h.1, fun reply => ih reply (h.2 reply)⟩

theorem Honest.forM {as : List α} {f : α → Prog Req Reply ε PUnit} {known : Set Fact}
    (h : ∀ a ∈ as, ∀ known', known ⊆ known' → (f a).Honest may learn known' fun _ _ => True) :
    (forM as f : Prog Req Reply ε PUnit).Honest may learn known fun _ _ => True := by
  induction as generalizing known with
  | nil => exact trivial
  | cons a as ih =>
    rw [List.forM_cons]
    refine Honest.seq (h a List.mem_cons_self known subset_rfl) fun known' _ hsub => ?_
    exact ih fun b hb known'' hsub' => h b (List.mem_cons_of_mem a hb) known'' (hsub.trans hsub')

theorem Honest.foldlM {as : List α} {f : β → α → Prog Req Reply ε β} {b : β} {known : Set Fact}
    (h : ∀ a ∈ as, ∀ b known', known ⊆ known' → (f b a).Honest may learn known' fun _ _ => True) :
    (as.foldlM f b).Honest may learn known fun _ _ => True := by
  induction as generalizing b known with
  | nil => exact trivial
  | cons a as ih =>
    rw [List.foldlM_cons]
    refine Honest.seq (h a List.mem_cons_self b known subset_rfl) fun known' b' hsub => ?_
    exact ih fun a ha b'' known'' hsub' =>
      h a (List.mem_cons_of_mem _ ha) b'' known'' (hsub.trans hsub')

end Honest

end Prog

/-! ## Systems -/

/-- A request that a program has sent, with the reply that the program saw. -/
structure Exchange (Req : Type) (Reply : Req → Type) where
  caller : ℕ
  request : Req
  reply : Reply request

/-- Programs running against one state: the jobs started, what is left of their programs, and the
requests they have sent.  A program is named by its place in the list. -/
structure Sys (σ Req : Type) (Reply : Req → Type) (ε Job : Type) where
  state : σ
  jobs : List Job := []
  running : List (Prog Req Reply ε Unit) := []
  sent : List (Exchange Req Reply) := []

/-- A job starts; a request is answered, fails for the program, or takes effect late. -/
inductive SysEvent (Job Env Err : Type)
  | start (job : Job)
  | serve (index : ℕ) (env : Env)
  | fail (index : ℕ) (error : Err)
  | late (index : ℕ) (env : Env)

/-- A service: how a request changes the state, and the reply of a failed call. -/
structure Service (σ Req : Type) (Reply : Req → Type) (Env Err : Type) where
  exec : Env → σ → (r : Req) → Reply r × σ
  failure : Err → (r : Req) → Reply r

namespace Sys

variable {σ Req : Type} {Reply : Req → Type} {ε Job Env Err : Type}

/-- A program sees the reply to its request. -/
def reply (S : Sys σ Req Reply ε Job) (index : ℕ) (request : Req) (reply : Reply request)
    (next : Reply request → Prog Req Reply ε Unit) (state : σ) : Sys σ Req Reply ε Job :=
  { S with
    state := state
    running := S.running.set index (next reply)
    sent := ⟨index, request, reply⟩ :: S.sent }

/-- One event; an event that does not apply changes nothing. -/
def step (service : Service σ Req Reply Env Err) (program : Job → Prog Req Reply ε Unit)
    (S : Sys σ Req Reply ε Job) : SysEvent Job Env Err → Sys σ Req Reply ε Job
  | .start job => { S with jobs := S.jobs ++ [job], running := S.running ++ [program job] }
  | .serve index env =>
    match S.running[index]? with
    | some (.call request next) =>
      let (answer, state) := service.exec env S.state request
      S.reply index request answer next state
    | _ => S
  | .fail index error =>
    match S.running[index]? with
    | some (.call request next) =>
      S.reply index request (service.failure error request) next S.state
    | _ => S
  | .late index env =>
    match S.sent[index]? with
    | some exchange => { S with state := (service.exec env S.state exchange.request).2 }
    | none => S

/-- The request that an event executes on the state, and the program that sent it. -/
def executes (S : Sys σ Req Reply ε Job) : SysEvent Job Env Err → Option (ℕ × Req)
  | .serve index _ =>
    match S.running[index]? with
    | some (.call request _) => some (index, request)
    | _ => none
  | .late index _ => S.sent[index]?.map fun exchange => (exchange.caller, exchange.request)
  | _ => none

theorem executes_serve (S : Sys σ Req Reply ε Job) {request : Req}
    {next : Reply request → Prog Req Reply ε Unit}
    (hindex : S.running[index]? = some (.call request next)) (env : Env) :
    S.executes (.serve index env : SysEvent Job Env Err) = some (index, request) := by
  simp only [executes, hindex]

/-- The system after a run of events from a state where nothing runs. -/
def run (service : Service σ Req Reply Env Err) (program : Job → Prog Req Reply ε Unit)
    (init : σ) (events : List (SysEvent Job Env Err)) : Sys σ Req Reply ε Job :=
  events.foldl (step service program) { state := init }

variable {service : Service σ Req Reply Env Err} {program : Job → Prog Req Reply ε Unit}
  {S : Sys σ Req Reply ε Job}

theorem step_state (S : Sys σ Req Reply ε Job) (event : SysEvent Job Env Err) :
    (S.step service program event).state = S.state ∨
    ∃ index request env, S.executes event = some (index, request) ∧
      (S.step service program event).state = (service.exec env S.state request).2 := by
  cases event with
  | start job => exact Or.inl rfl
  | serve index env =>
    simp only [step, executes]
    split
    · exact Or.inr ⟨_, _, env, rfl, rfl⟩
    · exact Or.inl rfl
  | fail index error =>
    simp only [step]
    split <;> exact Or.inl rfl
  | late index env =>
    simp only [step, executes]
    split
    · rename_i exchange hexchange
      exact Or.inr ⟨_, _, env, by rw [hexchange]; rfl, rfl⟩
    · exact Or.inl rfl

/-! ## What the programs know -/

section Knowledge

variable {Fact : Type} (first : Job → Set Fact) (may : Set Fact → Req → Prop)
  (learn : (r : Req) → Reply r → Set Fact)

/-- What a program knows: the facts of its job, and what its replies have taught. -/
def known (S : Sys σ Req Reply ε Job) (index : ℕ) : Set Fact :=
  {fact | (∃ job, S.jobs[index]? = some job ∧ fact ∈ first job) ∨
    ∃ exchange ∈ S.sent, exchange.caller = index ∧ fact ∈ learn exchange.request exchange.reply}

/-- Every program goes on honestly from what it knows, and has done so. -/
structure Obeys (S : Sys σ Req Reply ε Job) : Prop where
  jobs : S.jobs.length = S.running.length
  running : ∀ index (p : Prog Req Reply ε Unit), S.running[index]? = some p →
    p.Honest may learn (S.known first learn index) fun _ _ => True
  sent : ∀ exchange ∈ S.sent, may (S.known first learn exchange.caller) exchange.request

variable {first may learn}

theorem known_start (S : Sys σ Req Reply ε Job) (job : Job) (p : Prog Req Reply ε Unit)
    (index : ℕ) : S.known first learn index ⊆
      known first learn { S with jobs := S.jobs ++ [job], running := S.running ++ [p] } index := by
  rintro fact (⟨job', hjob, hfact⟩ | hsent)
  · obtain ⟨hlt, -⟩ := List.getElem?_eq_some_iff.mp hjob
    exact Or.inl ⟨job', by rwa [List.getElem?_append_left hlt], hfact⟩
  · exact Or.inr hsent

theorem known_reply {request : Req} {answer : Reply request}
    {next : Reply request → Prog Req Reply ε Unit} {state : σ} (other : ℕ) :
    (S.reply index request answer next state).known first learn other =
      S.known first learn other ∪ {fact | other = index ∧ fact ∈ learn request answer} := by
  ext fact
  simp only [known, reply, List.mem_cons, Set.mem_union, Set.mem_ofPred_eq, or_assoc]
  refine or_congr_right ⟨?_, ?_⟩
  · rintro ⟨exchange, rfl | hmem, rfl, hfact⟩
    · exact Or.inr ⟨rfl, hfact⟩
    · exact Or.inl ⟨exchange, hmem, rfl, hfact⟩
  · rintro (⟨exchange, hmem, hcaller, hfact⟩ | ⟨rfl, hfact⟩)
    · exact ⟨exchange, Or.inr hmem, hcaller, hfact⟩
    · exact ⟨_, Or.inl rfl, rfl, hfact⟩

/-- A reply keeps every program honest about the rest of its run. -/
theorem Obeys.reply (h : Obeys first may learn S)
    (hmono : ∀ {known known' r}, known ⊆ known' → may known r → may known' r)
    {request : Req} {next : Reply request → Prog Req Reply ε Unit}
    (hindex : S.running[index]? = some (.call request next)) (answer : Reply request) (state : σ) :
    Obeys first may learn (S.reply index request answer next state) := by
  obtain ⟨hmay, hnext⟩ := h.running index _ hindex
  have hknown (other : ℕ) : S.known first learn other ⊆
      (S.reply index request answer next state).known first learn other := by
    rw [known_reply]
    exact Set.subset_union_left
  constructor
  case jobs => simpa [Sys.reply] using h.jobs
  case running =>
    intro other p hp
    by_cases hother : other = index
    · subst hother
      obtain rfl : next answer = p := by
        simpa [Sys.reply, (List.getElem?_eq_some_iff.mp hindex).1] using hp
      refine (hnext answer).weaken hmono ?_
      rw [known_reply]
      exact Set.union_subset_union_right _ fun fact hfact => ⟨rfl, hfact⟩
    · rw [Sys.reply, List.getElem?_set_ne (Ne.symm hother)] at hp
      exact (h.running other p hp).weaken hmono (hknown other)
  case sent =>
    intro exchange hexchange
    rcases List.mem_cons.mp hexchange with rfl | hexchange
    · exact hmono (hknown index) hmay
    · exact hmono (hknown _) (h.sent exchange hexchange)

/-- Any event keeps the programs honest. -/
theorem Obeys.step (h : Obeys first may learn S)
    (hmono : ∀ {known known' r}, known ⊆ known' → may known r → may known' r)
    (hprogram : ∀ job, (program job).Honest may learn (first job) fun _ _ => True)
    (event : SysEvent Job Env Err) : Obeys first may learn (S.step service program event) := by
  cases event with
  | start job =>
    have hknown : ∀ index, S.known first learn index ⊆ _ := known_start S job (program job)
    refine ⟨by simp [Sys.step, h.jobs], fun index p hp => ?_, fun exchange hexchange =>
      hmono (hknown _) (h.sent exchange hexchange)⟩
    simp only [Sys.step, List.getElem?_append] at hp
    split at hp
    · exact (h.running index p hp).weaken hmono (hknown index)
    · obtain ⟨hindex, rfl⟩ : index = S.running.length ∧ program job = p := by
        have := List.getElem?_eq_some_iff.mp hp
        obtain ⟨hlt, rfl⟩ := this
        simp only [List.length_singleton] at hlt
        refine ⟨by omega, by simp⟩
      refine (hprogram job).weaken hmono fun fact hfact => Or.inl ⟨job, ?_, hfact⟩
      simp [Sys.step, hindex, ← h.jobs]
  | serve index env =>
    simp only [Sys.step]
    split
    · rename_i request next hindex
      exact h.reply hmono hindex _ _
    · exact h
  | fail index error =>
    simp only [Sys.step]
    split
    · rename_i request next hindex
      exact h.reply hmono hindex _ _
    · exact h
  | late index env =>
    simp only [Sys.step]
    split
    · exact ⟨h.jobs, h.running, h.sent⟩
    · exact h

variable {event : SysEvent Job Env Err}

theorem Obeys.executes (h : Obeys first may learn S)
    {request : Req} (hexecutes : S.executes event = some (index, request)) :
    may (S.known first learn index) request := by
  cases event with
  | start job => contradiction
  | serve index env =>
    simp only [Sys.executes] at hexecutes
    split at hexecutes
    · rename_i request next hindex
      obtain ⟨rfl, rfl⟩ := Prod.mk.inj (Option.some.inj hexecutes)
      exact (h.running _ _ hindex).1
    · contradiction
  | fail index error => contradiction
  | late index env =>
    obtain ⟨exchange, hexchange, heq⟩ := Option.map_eq_some_iff.mp hexecutes
    obtain ⟨rfl, rfl⟩ := Prod.mk.inj heq
    exact h.sent exchange (List.mem_of_getElem? hexchange)

variable (first may learn)

/-- Facts stay true, replies teach only true facts, and permitted requests keep `Inv`. -/
structure Sound (service : Service σ Req Reply Env Err) (holds : σ → Set Fact) (Inv : σ → Prop) :
    Prop where
  first : ∀ {job s}, Inv s → first job ⊆ holds s
  may_mono : ∀ {known known' r}, known ⊆ known' → may known r → may known' r
  inv : ∀ {env s r}, Inv s → may (holds s) r → Inv (service.exec env s r).2
  stable : ∀ env {s r}, Inv s → may (holds s) r → holds s ⊆ holds (service.exec env s r).2
  learned : ∀ {env s r}, Inv s → may (holds s) r →
    learn r (service.exec env s r).1 ⊆ holds (service.exec env s r).2
  failure : ∀ {error r}, learn r (service.failure error r) = ∅

/-- Every program is honest, and knows only what holds. -/
structure Good (holds : σ → Set Fact) (Inv : σ → Prop) (S : Sys σ Req Reply ε Job) : Prop where
  inv : Inv S.state
  obeys : Obeys first may learn S
  holds : ∀ index, S.known first learn index ⊆ holds S.state

variable {first may learn} {holds : σ → Set Fact} {Inv : σ → Prop}

theorem Good.permitted (h : Good first may learn holds Inv S)
    (hsound : Sound first may learn service holds Inv)
    {request : Req} (hexecutes : S.executes event = some (index, request)) :
    may (holds S.state) request :=
  hsound.may_mono (h.holds index) (h.obeys.executes hexecutes)

/-- The invariant survives one event: only permitted requests are executed. -/
theorem Good.step (h : Good first may learn holds Inv S)
    (hsound : Sound first may learn service holds Inv)
    (hprogram : ∀ job, (program job).Honest may learn (first job) fun _ _ => True)
    (event : SysEvent Job Env Err) : Good first may learn holds Inv
    (S.step service program event) := by
  have hstate : Inv (S.step service program event).state ∧
      holds S.state ⊆ holds (S.step service program event).state := by
    rcases step_state S event with heq | ⟨index, request, env, hexecutes, heq⟩
    · rw [heq]
      exact ⟨h.inv, subset_rfl⟩
    · have hmay := h.permitted hsound hexecutes
      rw [heq]
      exact ⟨hsound.inv h.inv hmay, hsound.stable env h.inv hmay⟩
  refine ⟨hstate.1, h.obeys.step hsound.may_mono hprogram event, fun other => ?_⟩
  have hkept := (h.holds other).trans hstate.2
  cases event with
  | start job =>
    rintro fact (⟨job, -, hfact⟩ | hsent)
    · exact hsound.first h.inv hfact
    · exact h.holds other (Or.inr hsent)
  | serve index env =>
    cases hindex : S.running[index]? with
    | none => simpa [Sys.step, hindex] using h.holds other
    | some p =>
      cases p with
      | done result => simpa [Sys.step, hindex] using h.holds other
      | call request next =>
        have hmay := h.permitted hsound (S.executes_serve hindex env)
        simp only [Sys.step, hindex] at hkept ⊢
        rw [known_reply]
        refine Set.union_subset hkept ?_
        rintro fact ⟨-, hfact⟩
        exact hsound.learned h.inv hmay hfact
  | fail index error =>
    cases hindex : S.running[index]? with
    | none => simpa [Sys.step, hindex] using h.holds other
    | some p =>
      cases p with
      | done result => simpa [Sys.step, hindex] using h.holds other
      | call request next =>
        simp only [Sys.step, hindex]
        rw [known_reply, hsound.failure]
        exact Set.union_subset (h.holds other) (by simp)
  | late index env =>
    simp only [Sys.step] at hkept ⊢
    split at hkept <;> exact hkept

/-- Run rule: under honest programs the invariant holds in every state. -/
theorem good_run {init : σ} (hsound : Sound first may learn service holds Inv)
    (hprogram : ∀ job, (program job).Honest may learn (first job) fun _ _ => True)
    (hinit : Inv init) (events : List (SysEvent Job Env Err)) :
    Good first may learn holds Inv (run service program init events) := by
  refine List.foldlRecOn (motive := Good first may learn holds Inv) _ _ ⟨hinit, ?_, ?_⟩ ?_
  · exact ⟨rfl, by simp, by simp⟩
  · rintro index fact (⟨job, hjob, -⟩ | ⟨exchange, hmem, -⟩)
    · simp at hjob
    · simp at hmem
  · exact fun S hS event _ => hS.step hsound hprogram event

end Knowledge

end Sys

end MultiDb.Shared
