import AgentGov.Foundation.Checked

/-!
# Programs over instructions

A program returns a result, raises, or performs an instruction and goes on with its reply. A
handler gives the instructions their meaning: what each replies, or raises, and the state it
leaves. What a program raises leaves the state as it was then. One program may be run by several
handlers, and what is proved of the instructions holds of every program.

## Main definitions

* `Foundation.Program`: programs, with their monad.
* `Foundation.Program.run`: the run of a program by a handler.
* `Foundation.Program.Allowed`: a program performs only instructions that are allowed then.
* `Foundation.Program.Meets`: and it ends as a condition says.
* `Foundation.Program.Only`: a program performs only instructions of some kind.
* `Foundation.Program.steps`: the states before and after each instruction of a run.

## Main results

* `Foundation.Program.run_keeps`, `Foundation.Program.run_invariant`: the invariant rules.
* `Foundation.Program.forall_steps`: what holds of every instruction of a run.
* `Foundation.Program.meets_bind`, `Foundation.Program.Meets.run`: the rules of conditions.
* `Foundation.Program.run_related_of_only`: the simulation rule, for programs of some
  instructions.
-/

namespace Foundation

/-- A program over instructions, an instruction of type `ι β` being answered by a `β`. -/
inductive Program (ι : Type → Type 1) (ε α : Type) : Type 1
  /-- The program returns. -/
  | ret (a : α)
  /-- The program raises. -/
  | raise (e : ε)
  /-- An instruction, and the program that goes on with its reply. -/
  | perform {β : Type} (i : ι β) (next : β → Program ι ε α)

/-- What the instructions do: the reply, or what is raised, and the state left. -/
abbrev Handler (ι : Type → Type 1) (ε σ : Type) := (β : Type) → ι β → σ → Except ε β × σ

namespace Program

variable {ι : Type → Type 1} {ε α β γ σ τ : Type}

/-- One program after another. -/
def bind : Program ι ε α → (α → Program ι ε β) → Program ι ε β
  | ret a, f => f a
  | raise e, _ => raise e
  | perform i next, f => perform i fun r => bind (next r) f

instance : Monad (Program ι ε) where
  pure := ret
  bind := bind

@[simp] theorem pure_eq_ret (a : α) : (pure a : Program ι ε α) = ret a := rfl

@[simp] theorem ret_bind (a : α) (f : α → Program ι ε β) : (ret a >>= f) = f a := rfl

@[simp] theorem raise_bind (e : ε) (f : α → Program ι ε β) :
    ((raise e : Program ι ε α) >>= f) = raise e := rfl

@[simp] theorem perform_bind (i : ι γ) (next : γ → Program ι ε α) (f : α → Program ι ε β) :
    (perform i next >>= f) = perform i fun r => next r >>= f := rfl

theorem map_id (p : Program ι ε α) : id <$> p = p := by
  induction p with
  | ret a => rfl
  | raise e => rfl
  | perform i next ih => exact congrArg (perform i) (funext ih)

theorem assoc (p : Program ι ε α) (f : α → Program ι ε β) (g : β → Program ι ε γ) :
    p >>= f >>= g = p >>= fun a => f a >>= g := by
  induction p with
  | ret a => rfl
  | raise e => rfl
  | perform i next ih => exact congrArg (perform i) (funext ih)

instance : LawfulMonad (Program ι ε) := LawfulMonad.mk' _ map_id (fun _ _ => rfl) assoc

/-- A single instruction. -/
def instr (i : ι β) : Program ι ε β := perform i ret

@[simp] theorem instr_bind (i : ι γ) (f : γ → Program ι ε β) :
    (instr i >>= f) = perform i f := rfl

/-- A computation that may raise, as a program. -/
def ofExcept : Except ε α → Program ι ε α
  | .ok a => ret a
  | .error e => raise e

/-- A condition checked before going on. -/
def check (c : Prop) [Decidable c] (e : ε) : Program ι ε PUnit :=
  if c then ret ⟨⟩ else raise e

/-! ### Runs -/

/-- What follows a result in the state it leaves. -/
def proceed (x : Except ε β × σ) (k : β → σ → Except ε α × σ) : Except ε α × σ :=
  match x with
  | (.ok r, s) => k r s
  | (.error e, s) => (.error e, s)

@[simp] theorem proceed_ok (r : β) (s : σ) (k : β → σ → Except ε α × σ) :
    proceed (.ok r, s) k = k r s := rfl

@[simp] theorem proceed_error (e : ε) (s : σ) (k : β → σ → Except ε α × σ) :
    proceed (.error e, s) k = (.error e, s) := rfl

variable (h : Handler ι ε σ)

/-- The run of a program: its result, and the state it leaves. -/
def run : Program ι ε α → σ → Except ε α × σ
  | ret a, s => (.ok a, s)
  | raise e, s => (.error e, s)
  | perform i next, s => proceed (h _ i s) fun r s => run (next r) s

/-- The states before and after each instruction of a run. -/
def steps : Program ι ε α → σ → List (σ × σ)
  | ret _, _ => []
  | raise _, _ => []
  | perform i next, s =>
    (s, (h _ i s).2) ::
      match h _ i s with
      | (.ok r, s) => steps (next r) s
      | (.error _, _) => []

/-- Whether every instruction a program performs is allowed in the state it is performed in. -/
def Allowed (ok : (β : Type) → ι β → σ → Prop) : Program ι ε α → σ → Prop
  | ret _, _ => True
  | raise _, _ => True
  | perform i next, s => ok _ i s ∧ ∀ r t, h _ i s = (.ok r, t) → Allowed ok (next r) t

/-- Whether every instruction a program performs is allowed in the state it is performed in, and
the program ends as `Q` says. -/
def Meets (ok : (β : Type) → ι β → σ → Prop) (Q : Except ε α → σ → Prop) :
    Program ι ε α → σ → Prop
  | ret a, s => Q (.ok a) s
  | raise e, s => Q (.error e) s
  | perform i next, s => ok _ i s ∧
    match h _ i s with
    | (.ok r, t) => Meets ok Q (next r) t
    | (.error e, t) => Q (.error e) t

/-- Whether a program performs only instructions of some kind, whatever they reply. -/
def Only (P : (β : Type) → ι β → Prop) : Program ι ε α → Prop
  | ret _ => True
  | raise _ => True
  | perform i next => P _ i ∧ ∀ r, Only P (next r)

variable {h}

@[simp] theorem run_ret (a : α) (s : σ) : run h (ret a : Program ι ε α) s = (.ok a, s) := rfl

@[simp] theorem run_raise (e : ε) (s : σ) :
    run h (raise e : Program ι ε α) s = (.error e, s) := rfl

theorem run_perform (i : ι β) (next : β → Program ι ε α) (s : σ) :
    run h (perform i next) s = proceed (h _ i s) fun r t => run h (next r) t := rfl

theorem run_perform_ok {i : ι β} {next : β → Program ι ε α} {s t : σ} {r : β}
    (hi : h _ i s = (.ok r, t)) : run h (perform i next) s = run h (next r) t := by
  rw [run_perform, hi, proceed_ok]

theorem run_perform_error {i : ι β} {next : β → Program ι ε α} {s t : σ} {e : ε}
    (hi : h _ i s = (.error e, t)) : run h (perform i next) s = (.error e, t) := by
  rw [run_perform, hi, proceed_error]

/-- A sequence runs its second part where its first part returns. -/
theorem run_bind (p : Program ι ε α) (f : α → Program ι ε β) (s : σ) :
    run h (p >>= f) s = proceed (run h p s) fun a t => run h (f a) t := by
  induction p generalizing s with
  | ret a => rfl
  | raise e => rfl
  | perform i next ih =>
    rw [perform_bind, run_perform, run_perform]
    rcases h _ i s with ⟨_ | r, t⟩
    · rfl
    · exact ih r t

section Rules

variable {ok : (β : Type) → ι β → σ → Prop}

@[simp] theorem allowed_ret (a : α) (s : σ) : Allowed h ok (ret a : Program ι ε α) s := trivial

@[simp] theorem allowed_raise (e : ε) (s : σ) : Allowed h ok (raise e : Program ι ε α) s := trivial

/-- What the allowed instructions keep, a program keeps. -/
theorem run_keeps {Inv : σ → Prop} (hstep : ∀ (β : Type) (i : ι β) (s : σ), ok _ i s → Inv s →
    Inv (h _ i s).2) {p : Program ι ε α} {s : σ} (hp : Allowed h ok p s) (hs : Inv s) :
    Inv (run h p s).2 := by
  induction p generalizing s with
  | ret a => exact hs
  | raise e => exact hs
  | perform i next ih =>
    obtain ⟨hi, hnext⟩ := hp
    have ht := hstep _ i s hi hs
    rw [run_perform]
    rcases hr : h _ i s with ⟨_ | r, t⟩
    · rw [hr] at ht
      exact ht
    · rw [hr] at ht
      exact ih r (hnext r t hr) ht

/-- What every allowed instruction does in a state that keeps an invariant, every instruction of
a run does. -/
theorem forall_steps {I : σ → Prop} {P : σ → σ → Prop}
    (hstep : ∀ (β : Type) (i : ι β) (s : σ), ok _ i s → I s →
      I (h _ i s).2 ∧ P s (h _ i s).2)
    {p : Program ι ε α} {s : σ} (hp : Allowed h ok p s) (hs : I s) :
    ∀ step ∈ steps h p s, P step.1 step.2 := by
  induction p generalizing s with
  | ret a => exact fun _ hm => absurd hm List.not_mem_nil
  | raise e => exact fun _ hm => absurd hm List.not_mem_nil
  | perform i next ih =>
    obtain ⟨hi, hnext⟩ := hp
    obtain ⟨ht, hP⟩ := hstep _ i s hi hs
    intro step hm
    rw [steps] at hm
    rcases List.mem_cons.mp hm with rfl | hm
    · exact hP
    · rcases hr : h _ i s with ⟨_ | r, t⟩
      · simp only [hr] at hm
        exact absurd hm List.not_mem_nil
      · simp only [hr] at hm ht
        exact ih r (hnext r t hr) ht step hm

/-- What instructions go on from one another, a run goes on through. -/
theorem steps_between {R : σ → σ → Prop} (refl : ∀ s, R s s)
    (trans : ∀ s t u, R s t → R t u → R s u)
    (hstep : ∀ (β : Type) (i : ι β) (s : σ), R s (h _ i s).2) (p : Program ι ε α) (s : σ) :
    R s (run h p s).2 ∧ ∀ step ∈ steps h p s, R s step.2 ∧ R step.2 (run h p s).2 := by
  induction p generalizing s with
  | ret a => exact ⟨refl s, fun _ hm => absurd hm List.not_mem_nil⟩
  | raise e => exact ⟨refl s, fun _ hm => absurd hm List.not_mem_nil⟩
  | perform i next ih =>
    have ht := hstep _ i s
    rw [run_perform, steps]
    rcases hr : h _ i s with ⟨_ | r, t⟩ <;> rw [hr] at ht
    · exact ⟨ht, fun step hm => List.mem_singleton.mp hm ▸ ⟨ht, refl t⟩⟩
    · obtain ⟨hrun, hsteps⟩ := ih r t
      refine ⟨trans _ _ _ ht hrun, fun step hm => ?_⟩
      rcases List.mem_cons.mp hm with rfl | hm
      · exact ⟨ht, hrun⟩
      · exact ⟨trans _ _ _ ht (hsteps step hm).1, (hsteps step hm).2⟩

/-- Every instruction is allowed where all of them are. -/
theorem allowed_of_forall (hok : ∀ (β : Type) (i : ι β) (s : σ), ok _ i s) (p : Program ι ε α)
    (s : σ) : Allowed h ok p s := by
  induction p generalizing s with
  | ret a => trivial
  | raise e => trivial
  | perform i next ih => exact ⟨hok _ i s, fun r t _ => ih r t⟩

/-- What every instruction keeps, a program keeps. -/
theorem run_invariant {I : σ → Prop} (hstep : ∀ (β : Type) (i : ι β) (s : σ), I s →
    I (h _ i s).2) (p : Program ι ε α) {s : σ} (hs : I s) : I (run h p s).2 :=
  run_keeps (fun β i s _ => hstep β i s)
    (allowed_of_forall (fun _ _ _ => trivial) p s : Allowed h (fun _ _ _ => True) p s) hs

/-! ### What a program meets -/

variable {Q : Except ε α → σ → Prop}

theorem meets_perform {i : ι β} {next : β → Program ι ε α} {s : σ} :
    Meets h ok Q (perform i next) s ↔ ok _ i s ∧
      (∀ r t, h _ i s = (.ok r, t) → Meets h ok Q (next r) t) ∧
      ∀ e t, h _ i s = (.error e, t) → Q (.error e) t := by
  rw [Meets]
  rcases h _ i s with ⟨e | r, t⟩ <;> simp

/-- A sequence meets what its second part meets wherever its first part returns. -/
theorem meets_bind {p : Program ι ε β} {f : β → Program ι ε α} {s : σ} :
    Meets h ok Q (p >>= f) s ↔ Meets h ok (fun r t => match r with
      | .ok b => Meets h ok Q (f b) t
      | .error e => Q (.error e) t) p s := by
  induction p generalizing s with
  | ret b => rfl
  | raise e => rfl
  | perform i next ih =>
    rw [perform_bind, meets_perform, meets_perform]
    simp only [ih]

theorem Meets.mono {Q' : Except ε α → σ → Prop} {p : Program ι ε α} {s : σ}
    (hp : Meets h ok Q p s) (hQ : ∀ r t, Q r t → Q' r t) : Meets h ok Q' p s := by
  induction p generalizing s with
  | ret a => exact hQ _ _ hp
  | raise e => exact hQ _ _ hp
  | perform i next ih =>
    rw [meets_perform] at hp ⊢
    exact ⟨hp.1, fun r t hr => ih r (hp.2.1 r t hr), fun e t he => hQ _ _ (hp.2.2 e t he)⟩

/-- A program ends as it meets. -/
theorem Meets.run {p : Program ι ε α} {s : σ} (hp : Meets h ok Q p s) :
    Q (Program.run h p s).1 (Program.run h p s).2 := by
  induction p generalizing s with
  | ret a => exact hp
  | raise e => exact hp
  | perform i next ih =>
    rw [meets_perform] at hp
    rw [run_perform]
    rcases hr : h _ i s with ⟨e | r, t⟩
    · exact hp.2.2 e t hr
    · exact ih r (hp.2.1 r t hr)

/-- Where every instruction is allowed, a program meets what its run is. -/
theorem meets_run (hok : ∀ (β : Type) (i : ι β) (s : σ), ok _ i s) (p : Program ι ε α) (s : σ) :
    Meets h ok (fun r t => Program.run h p s = (r, t)) p s := by
  induction p generalizing s with
  | ret a => rfl
  | raise e => rfl
  | perform i next ih =>
    refine meets_perform.mpr ⟨hok _ i s, fun r t hi => ?_, fun e t hi => run_perform_error hi⟩
    rw [run_perform_ok hi]
    exact ih r t

theorem Meets.allowed {p : Program ι ε α} {s : σ} (hp : Meets h ok Q p s) : Allowed h ok p s := by
  induction p generalizing s with
  | ret a => trivial
  | raise e => trivial
  | perform i next ih =>
    rw [meets_perform] at hp
    exact ⟨hp.1, fun r t hr => ih r (hp.2.1 r t hr)⟩

theorem meets_ofExcept_bind {x : Except ε β} {f : β → Program ι ε α} {s : σ} :
    Meets h ok Q (ofExcept x >>= f) s ↔ (∀ b, x = .ok b → Meets h ok Q (f b) s) ∧
      ∀ e, x = .error e → Q (.error e) s := by
  cases x <;> simp [ofExcept, Meets]

theorem meets_check_bind {c : Prop} [Decidable c] {e : ε} {f : PUnit → Program ι ε α} {s : σ} :
    Meets h ok Q (check c e >>= f) s ↔ (c → Meets h ok Q (f ⟨⟩) s) ∧ (¬c → Q (.error e) s) := by
  by_cases hc : c <;> simp [check, hc, Meets]

end Rules

/-! ### Programs of some instructions -/

variable {P : (β : Type) → ι β → Prop}

@[simp] theorem only_ret (a : α) : Only P (ret a : Program ι ε α) := trivial

@[simp] theorem only_raise (e : ε) : Only P (raise e : Program ι ε α) := trivial

theorem only_instr {i : ι β} (hi : P β i) : Only P (instr i : Program ι ε β) :=
  ⟨hi, fun _ => trivial⟩

theorem only_bind {p : Program ι ε α} {f : α → Program ι ε β} (hp : Only P p)
    (hf : ∀ a, Only P (f a)) : Only P (p >>= f) := by
  induction p with
  | ret a => exact hf a
  | raise e => trivial
  | perform i next ih => exact ⟨hp.1, fun r => ih r (hp.2 r)⟩

@[simp] theorem only_ofExcept (x : Except ε α) : Only P (ofExcept x : Program ι ε α) := by
  cases x <;> trivial

@[simp] theorem only_check (c : Prop) [Decidable c] (e : ε) :
    Only P (check c e : Program ι ε PUnit) := by
  unfold check
  split_ifs <;> trivial

theorem Only.mono {P' : (β : Type) → ι β → Prop} {p : Program ι ε α} (hp : Only P p)
    (h : ∀ (β : Type) (i : ι β), P β i → P' β i) : Only P' p := by
  induction p with
  | ret a => trivial
  | raise e => trivial
  | perform i next ih => exact ⟨h _ i hp.1, fun r => ih r (hp.2 r)⟩

/-- What instructions of some kind keep, a program of them keeps. -/
theorem Only.run_keeps {h : Handler ι ε σ} {I : σ → Prop}
    (hstep : ∀ (β : Type) (i : ι β) (s : σ), P β i → I s → I (h _ i s).2)
    {p : Program ι ε α} (hp : Only P p) {s : σ} (hs : I s) : I (run h p s).2 := by
  induction p generalizing s with
  | ret a => exact hs
  | raise e => exact hs
  | perform i next ih =>
    have ht := hstep _ i s hp.1 hs
    rw [run_perform]
    rcases hi : h _ i s with ⟨_ | r, t⟩
    · rw [hi] at ht
      exact ht
    · rw [hi] at ht
      exact ih r (hp.2 r) ht

/-- Handlers that reply alike, in related states, to the instructions of a program run it
alike. -/
theorem run_related_of_only {h : Handler ι ε σ} {h' : Handler ι ε τ} {R : σ → τ → Prop}
    (hstep : ∀ (β : Type) (i : ι β) (s : σ) (t : τ), P β i → R s t →
      (h _ i s).1 = (h' _ i t).1 ∧ R (h _ i s).2 (h' _ i t).2)
    {p : Program ι ε α} (hp : Only P p) {s : σ} {t : τ} (hR : R s t) :
    (run h p s).1 = (run h' p t).1 ∧ R (run h p s).2 (run h' p t).2 := by
  induction p generalizing s t with
  | ret a => exact ⟨rfl, hR⟩
  | raise e => exact ⟨rfl, hR⟩
  | perform i next ih =>
    obtain ⟨hr, hR'⟩ := hstep _ i s t hp.1 hR
    rw [run_perform, run_perform]
    rcases hi : h _ i s with ⟨x, s'⟩
    rcases hj : h' _ i t with ⟨y, t'⟩
    rw [hi, hj] at hr hR'
    cases hr
    cases x with
    | error e => exact ⟨rfl, hR'⟩
    | ok r => exact ih r (hp.2 r) hR'

end Program

end Foundation
