import Mathlib.Data.List.Basic

/-!
# Servers and their sessions

A server has states, and a relation that says how it may answer a request in a
state and in which state that leaves it.  A session is the log of the requests
and their answers.  One server implements another one as long as its client
makes no request that the other one would not answer.
-/

namespace RequestServer

structure Server (σ Q A : Type*) where
  start : σ → Prop
  step : σ → Q → A → σ → Prop

variable {σ τ Q A Q' A' : Type*} {S C : Server σ Q A} {D : Server τ Q' A'} {s t u : σ}
  {log log' : List (Q × A)} {q : Q} {a : A}

namespace Server

inductive Runs (S : Server σ Q A) : σ → List (Q × A) → σ → Prop
  | nil {s : σ} : Runs S s [] s
  | cons {s t u : σ} {q : Q} {a : A} {log : List (Q × A)} : S.step s q a t → Runs S t log u →
      Runs S s ((q, a) :: log) u

def Session (S : Server σ Q A) (log : List (Q × A)) (t : σ) : Prop :=
  ∃ s, S.start s ∧ S.Runs s log t

def Accepts (S : Server σ Q A) (s : σ) (q : Q) : Prop := ∃ a t, S.step s q a t

theorem Runs.append (h : S.Runs s log t) (h' : S.Runs t log' u) : S.Runs s (log ++ log') u := by
  induction h with
  | nil => exact h'
  | cons hstep _ ih => exact .cons hstep (ih h')

theorem Runs.snoc (h : S.Runs s log t) (hstep : S.step t q a u) : S.Runs s (log ++ [(q, a)]) u :=
  h.append (.cons hstep .nil)

theorem runs_append : S.Runs s (log ++ log') u ↔ ∃ t, S.Runs s log t ∧ S.Runs t log' u := by
  constructor
  · intro h
    induction log generalizing s with
    | nil => exact ⟨s, .nil, h⟩
    | cons x log ih =>
        cases h with
        | cons hstep hrest =>
            obtain ⟨t, hlog, hlog'⟩ := ih hrest
            exact ⟨t, .cons hstep hlog, hlog'⟩
  · rintro ⟨t, hlog, hlog'⟩
    exact hlog.append hlog'

theorem Session.append (h : S.Session log t) (h' : S.Runs t log' u) :
    S.Session (log ++ log') u := by
  obtain ⟨s, hstart, hruns⟩ := h
  exact ⟨s, hstart, hruns.append h'⟩

theorem Runs.invariant {I : σ → Prop} (hkeep : ∀ {s t q a}, I s → S.step s q a t → I t)
    (h : S.Runs s log t) (hs : I s) : I t := by
  induction h with
  | nil => exact hs
  | cons hstep _ ih => exact ih (hkeep hs hstep)

/-- The same server, in the states of an invariant only. -/
def within (S : Server σ Q A) (I : σ → Prop) : Server σ Q A where
  start := fun s => S.start s ∧ I s
  step := fun s q a t => S.step s q a t ∧ I s

theorem Runs.within {I : σ → Prop} (hkeep : ∀ {s t q a}, I s → S.step s q a t → I t)
    (h : S.Runs s log t) (hs : I s) : (S.within I).Runs s log t := by
  induction h with
  | nil => exact .nil
  | cons hstep _ ih => exact .cons ⟨hstep, hs⟩ (ih (hkeep hs hstep))

/-- The log determines the state. -/
structure Determined (S : Server σ Q A) : Prop where
  start : ∀ {s t}, S.start s → S.start t → s = t
  step : ∀ {s t u q a}, S.step s q a t → S.step s q a u → t = u

theorem Determined.runs (hdet : S.Determined) (h : S.Runs s log t) (h' : S.Runs s log u) :
    t = u := by
  induction h with
  | nil =>
      cases h'
      rfl
  | cons hstep _ ih =>
      cases h' with
      | cons hstep' hrest' =>
          obtain rfl := hdet.step hstep hstep'
          exact ih hrest'

theorem Determined.session (hdet : S.Determined) (h : S.Session log t) (h' : S.Session log u) :
    t = u := by
  obtain ⟨s, hstart, hruns⟩ := h
  obtain ⟨s', hstart', hruns'⟩ := h'
  obtain rfl := hdet.start hstart hstart'
  exact hdet.runs hruns hruns'

/-- A fact about an exchange that holds when it takes place and from then on. -/
structure Remembers (S : Server σ Q A) (Fact : Q → A → σ → Prop) : Prop where
  learns : ∀ {s t q a}, S.step s q a t → Fact q a t
  keeps : ∀ {s t q a q' a'}, Fact q a s → S.step s q' a' t → Fact q a t

theorem Remembers.of_mem {Fact : Q → A → σ → Prop} (hfact : S.Remembers Fact)
    (h : S.Runs s log t) (hmem : (q, a) ∈ log) : Fact q a t := by
  induction h with
  | nil => cases hmem
  | cons hstep hrest ih =>
      rcases List.mem_cons.mp hmem with hfirst | hlater
      · cases hfirst
        exact hrest.invariant hfact.keeps (hfact.learns hstep)
      · exact ih hlater

end Server

/-- One server does what another one does, in whatever the other one accepts;
`request` and `answer` read its exchanges as those of the other one. -/
structure Implements (C : Server σ Q A) (D : Server τ Q' A') (request : Q → Q')
    (answer : A → A') (R : σ → τ → Prop) : Prop where
  start : ∀ {s}, C.start s → ∃ t, D.start t ∧ R s t
  step : ∀ {s t s' q a}, R s t → D.Accepts t (request q) → C.step s q a s' →
    ∃ t', D.step t (request q) (answer a) t' ∧ R s' t'
  progress : ∀ {s t q}, R s t → D.Accepts t (request q) → C.Accepts s q

/-- The log has a first request that the other server does not accept. -/
def BreaksContract (D : Server τ Q' A') (request : Q → Q') (answer : A → A')
    (log : List (Q × A)) : Prop :=
  ∃ before q a after t, log = before ++ (q, a) :: after ∧
    D.Session (before.map (Prod.map request answer)) t ∧ ¬ D.Accepts t (request q)

namespace Implements

variable {request : Q → Q'} {answer : A → A'} {R : σ → τ → Prop} {v w : τ}

/-- For a server whose answers to the requests that the other server accepts are
determined it is enough to find one answer to each of them. -/
theorem of_served
    (hunique : ∀ {s v q a a' t t'}, R s v → D.Accepts v (request q) → C.step s q a t →
      C.step s q a' t' → a = a' ∧ t = t')
    (hstart : ∀ {s}, C.start s → ∃ t, D.start t ∧ R s t)
    (hserved : ∀ {s v q}, R s v → D.Accepts v (request q) →
      ∃ a t w, C.step s q a t ∧ D.step v (request q) (answer a) w ∧ R t w) :
    Implements C D request answer R where
  start := hstart
  step := by
    intro s v t q a hs haccepts hstep
    obtain ⟨a', t', w, hstep', hspec, hw⟩ := hserved hs haccepts
    obtain ⟨rfl, rfl⟩ := hunique hs haccepts hstep hstep'
    exact ⟨w, hspec, hw⟩
  progress := by
    intro s v q hs haccepts
    obtain ⟨a, t, -, hstep, -, -⟩ := hserved hs haccepts
    exact ⟨a, t, hstep⟩

/-- A client that keeps to what the other server accepts is always answered. -/
theorem answers (h : Implements C D request answer R) (hs : R s v)
    (haccepts : D.Accepts v (request q)) :
    ∃ a t w, C.step s q a t ∧ D.step v (request q) (answer a) w ∧ R t w := by
  obtain ⟨a, t, hstep⟩ := h.progress hs haccepts
  obtain ⟨w, hstep', hw⟩ := h.step hs haccepts hstep
  exact ⟨a, t, w, hstep, hstep', hw⟩

theorem runs (h : Implements C D request answer R) (hruns : C.Runs s log t) (hs : R s v)
    {before : List (Q × A)} (hv : D.Session (before.map (Prod.map request answer)) v) :
    (∃ w, D.Session ((before ++ log).map (Prod.map request answer)) w ∧ R t w) ∨
      BreaksContract D request answer (before ++ log) := by
  induction hruns generalizing v before with
  | nil => exact .inl ⟨v, by rwa [List.append_nil], hs⟩
  | @cons s t u q a log hstep _ ih =>
      by_cases haccepts : D.Accepts v (request q)
      · obtain ⟨w, hspec, hw⟩ := h.step hs haccepts hstep
        have hsession : D.Session ((before ++ [(q, a)]).map (Prod.map request answer)) w := by
          rw [List.map_append]
          exact hv.append (.cons hspec .nil)
        have hrest := ih hw hsession
        rwa [List.append_assoc, List.singleton_append] at hrest
      · exact .inr ⟨before, q, a, log, v, rfl, hv, haccepts⟩

/-- Every session is one of the other server, up to the first request that the
other server does not accept. -/
theorem session (h : Implements C D request answer R) (hsession : C.Session log t) :
    (∃ w, D.Session (log.map (Prod.map request answer)) w ∧ R t w) ∨
      BreaksContract D request answer log := by
  obtain ⟨s, hstart, hruns⟩ := hsession
  obtain ⟨v, hstart', hs⟩ := h.start hstart
  have hnone : D.Session (([] : List (Q × A)).map (Prod.map request answer)) v :=
    ⟨v, hstart', .nil⟩
  exact h.runs hruns hs hnone

end Implements

/-- A log of the other server breaks no contract. -/
theorem Server.Determined.keepsContract {request : Q → Q'} {answer : A → A'} {w : τ}
    (hdet : D.Determined) (h : D.Session (log.map (Prod.map request answer)) w) :
    ¬ BreaksContract D request answer log := by
  rintro ⟨before, q, a, after, t, rfl, hbefore, hnot⟩
  obtain ⟨v, hstart, hruns⟩ := h
  rw [List.map_append, Server.runs_append] at hruns
  obtain ⟨t', hfirst, hrest⟩ := hruns
  obtain rfl := hdet.session hbefore ⟨v, hstart, hfirst⟩
  cases hrest with
  | cons hstep => exact hnot ⟨_, _, hstep⟩

end RequestServer
