import MultiDb.Shared.Programs

/-!
# Programs that run alone

A program that nothing interleaves with, with one input for each of its requests.  `Always`
is the weakest precondition of such runs.
-/

namespace MultiDb.Shared.Prog

variable {σ ι Req : Type} {Reply : Req → Type} {ε α β : Type}
variable {s : σ} {p : Prog Req Reply ε α} {f : α → Prog Req Reply ε β} {error' : σ → Prop}
  {ok' : α → σ → Prop}

/-- The result of a program and the state after it. -/
def run (serve : ι → σ → (r : Req) → Reply r × σ) (inputs : ℕ → ι) :
    Prog Req Reply ε α → σ → Except ε α × σ
  | done result, s => (result, s)
  | call request next, s =>
    let (reply, s') := serve (inputs 0) s request
    (next reply).run serve (fun n => inputs (n + 1)) s'

/-- How many inputs a run takes. -/
def used (serve : ι → σ → (r : Req) → Reply r × σ) (inputs : ℕ → ι) :
    Prog Req Reply ε α → σ → ℕ
  | done _, _ => 0
  | call request next, s =>
    let (reply, s') := serve (inputs 0) s request
    (next reply).used serve (fun n => inputs (n + 1)) s' + 1

/-- The second of two programs gets the inputs that the first has not used. -/
theorem run_bind (serve : ι → σ → (r : Req) → Reply r × σ) (inputs : ℕ → ι)
    (p : Prog Req Reply ε α) (f : α → Prog Req Reply ε β) (s : σ) :
    (p >>= f).run serve inputs s = match p.run serve inputs s with
      | (.ok a, s') => (f a).run serve (fun n => inputs (n + p.used serve inputs s)) s'
      | (.error e, s') => (.error e, s') := by
  induction p generalizing s inputs with
  | done result => cases result <;> rfl
  | call request next ih => exact ih _ _ _

theorem run_attempt (serve : ι → σ → (r : Req) → Reply r × σ) (inputs : ℕ → ι)
    (p : Prog Req Reply ε α) (s : σ) :
    p.attempt.run serve inputs s = (.ok (p.run serve inputs s).1, (p.run serve inputs s).2) := by
  induction p generalizing s inputs with
  | done result => rfl
  | call request next ih => exact ih _ _ _

theorem used_attempt (serve : ι → σ → (r : Req) → Reply r × σ) (inputs : ℕ → ι)
    (p : Prog Req Reply ε α) (s : σ) : p.attempt.used serve inputs s = p.used serve inputs s := by
  induction p generalizing s inputs with
  | done result => rfl
  | call request next ih => exact congrArg (· + 1) (ih _ _ _)

def firstInput (input : ι) (rest : ℕ → ι) : ℕ → ι
  | 0 => input
  | n + 1 => rest n

theorem run_bind_ok {serve : ι → σ → (r : Req) → Reply r × σ} {s' : σ} {a : α} {r : Except ε β × σ}
    (hp : ∀ inputs, p.run serve inputs s = (.ok a, s'))
    (hf : ∀ inputs, (f a).run serve inputs s' = r) (inputs : ℕ → ι) :
    (p >>= f).run serve inputs s = r := by
  induction p generalizing s inputs with
  | done result =>
    cases hp inputs
    exact hf inputs
  | call request next ih =>
    -- the inputs after the first are arbitrary
    have hnext : ∀ rest, (next (serve (inputs 0) s request).1).run serve rest
        (serve (inputs 0) s request).2 = (.ok a, s') :=
      fun rest => hp (firstInput (inputs 0) rest)
    exact ih _ hnext _

theorem run_bind_error {serve : ι → σ → (r : Req) → Reply r × σ} {s' : σ} {e : ε}
    (hp : ∀ inputs, p.run serve inputs s = (.error e, s')) (inputs : ℕ → ι) :
    (p >>= f).run serve inputs s = (.error e, s') := by
  induction p generalizing s inputs with
  | done result =>
    cases hp inputs
    rfl
  | call request next ih =>
    have hnext : ∀ rest, (next (serve (inputs 0) s request).1).run serve rest
        (serve (inputs 0) s request).2 = (.error e, s') :=
      fun rest => hp (firstInput (inputs 0) rest)
    exact ih _ hnext _

variable (serve : ι → σ → (r : Req) → Reply r × σ)

/-- However the inputs are chosen, a result comes with `ok` and an error with `error`. -/
def Always (ok : α → σ → Prop) (error : σ → Prop) : Prog Req Reply ε α → σ → Prop
  | done (.ok a), s => ok a s
  | done (.error _), s => error s
  | call request next, s => ∀ input,
      (next (serve input s request).1).Always ok error (serve input s request).2

variable {serve} {ok : α → σ → Prop} {error : σ → Prop}

theorem Always.run (h : p.Always serve ok error s)
    (inputs : ℕ → ι) :
    (∀ a s', p.run serve inputs s = (.ok a, s') → ok a s') ∧
    ∀ e s', p.run serve inputs s = (.error e, s') → error s' := by
  induction p generalizing s inputs with
  | done result =>
    cases result with
    | ok a =>
      constructor
      · rintro a s' ⟨⟩
        exact h
      · rintro e s' ⟨⟩
    | error e =>
      constructor
      · rintro a s' ⟨⟩
      · rintro e s' ⟨⟩
        exact h
  | call request next ih => exact ih _ (h (inputs 0)) _

theorem Always.mono
    (h : p.Always serve ok error s) (hok : ∀ a s', ok a s' → ok' a s')
    (herror : ∀ s', error s' → error' s') : p.Always serve ok' error' s := by
  induction p generalizing s with
  | done result =>
    cases result with
    | ok a => exact hok a s h
    | error e => exact herror s h
  | call request next ih => exact fun input => ih _ (h input)

theorem always_true (p : Prog Req Reply ε α) (s : σ) :
    p.Always serve (fun _ _ => True) (fun _ => True) s := by
  induction p generalizing s with
  | done result => cases result <;> trivial
  | call request next ih => exact fun input => ih _ _

/-- The rule for a bind, over what holds in between. -/
theorem Always.bind (mid : α → σ → Prop) {ok : β → σ → Prop} (hp : p.Always serve mid error s)
    (hf : ∀ a s', mid a s' → (f a).Always serve ok error s') :
    (p >>= f).Always serve ok error s := by
  induction p generalizing s with
  | done result =>
    cases result with
    | ok a => exact hf a s hp
    | error e => exact hp
  | call request next ih => exact fun input => ih _ (hp input)

theorem Always.attempt {ok : Except ε α → σ → Prop}
    (h : p.Always serve (fun a s' => ok (.ok a) s') (fun s' => ∀ e, ok (.error e) s') s) :
    p.attempt.Always serve ok error s := by
  induction p generalizing s with
  | done result =>
    cases result with
    | ok a => exact h
    | error e => exact h e
  | call request next ih => exact fun input => ih _ (h input)

theorem Always.and
    (h : p.Always serve ok error s) (h' : p.Always serve ok' error' s) :
    p.Always serve (fun a s' => ok a s' ∧ ok' a s') (fun s' => error s' ∧ error' s') s := by
  induction p generalizing s with
  | done result => cases result <;> exact ⟨h, h'⟩
  | call request next ih => exact fun input => ih _ (h input) (h' input)

/-- A service whose answers another service can give as well. -/
theorem Always.of_serves {κ : Type} {serve' : κ → σ → (r : Req) → Reply r × σ} (h : p.Always serve' ok error s)
    (hserves : ∀ input s r, ∃ input', serve input s r = serve' input' s r) :
    p.Always serve ok error s := by
  induction p generalizing s with
  | done result => cases result <;> exact h
  | call request next ih =>
    intro input
    obtain ⟨input', heq⟩ := hserves input s request
    rw [heq]
    exact ih _ (h input')

/-- What permitted requests keep holds wherever such a program ends. -/
theorem Honest.always {Fact : Type} {may : Req → Prop} {learn : (r : Req) → Reply r → Set Fact}
    {known : Set Fact} {post : Set Fact → Except ε α → Prop} {Inv : σ → Prop} (h : p.Honest (fun _ => may) learn known post) (hs : Inv s)
    (hstep : ∀ input s r, may r → Inv s → Inv (serve input s r).2) :
    p.Always serve (fun _ => Inv) Inv s := by
  induction p generalizing s known with
  | done result => cases result <;> exact hs
  | call request next ih =>
    exact fun input => ih _ (h.2 _) (hstep input s request h.1 hs)

/-- The rule for a loop, over an invariant of what is left to do. -/
theorem Always.forM (Inv : List α → σ → Prop) {as : List α} {f : α → Prog Req Reply ε PUnit} (hinit : Inv as s)
    (hstep : ∀ a as s, Inv (a :: as) s → (f a).Always serve (fun _ s' => Inv as s') error s) :
    (forM as f : Prog Req Reply ε PUnit).Always serve (fun _ s' => Inv [] s') error s := by
  induction as generalizing s with
  | nil => exact hinit
  | cons a as ih =>
    rw [List.forM_cons]
    exact Always.bind _ (hstep a as s hinit) fun _ s' hs' => ih hs'

theorem Always.foldlM (Inv : List α → β → σ → Prop) {as : List α}
    {f : β → α → Prog Req Reply ε β} {b : β} (hinit : Inv as b s)
    (hstep : ∀ a as b s, Inv (a :: as) b s →
      (f b a).Always serve (fun b' s' => Inv as b' s') error s) :
    (as.foldlM f b).Always serve (fun b' s' => Inv [] b' s') error s := by
  induction as generalizing b s with
  | nil => exact hinit
  | cons a as ih =>
    rw [List.foldlM_cons]
    exact Always.bind _ (hstep a as b s hinit) fun _ s' hs' => ih hs'

end MultiDb.Shared.Prog
