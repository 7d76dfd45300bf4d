import Mathlib.Logic.Function.Basic
import BackendTemplates.Library.Runs

namespace BackendTemplates.Runs

/-- Any number of clients over one shared world. A client's step reads and
changes the world and its own local state only; `env` is everything else. -/
structure Pool (Id World Client Act Env : Type*) where
  world : World
  client : Client
  step : Id → World → Client → Act → Option (World × Client)
  env : World → Env → Option World

namespace Pool

structure State (Id World Client : Type*) where
  world : World
  clients : Id → Client

inductive Action (Id Act Env : Type*) where
  | act (i : Id) (a : Act)
  | env (e : Env)
  deriving DecidableEq

variable {Id World Client Act Env : Type*} [DecidableEq Id]

/-- The interleaving of all clients, one atomic step at a time. -/
def machine (p : Pool Id World Client Act Env) :
    Machine (State Id World Client) (Action Id Act Env) where
  start := ⟨p.world, fun _ => p.client⟩
  step s
    | .act i a => (p.step i s.world (s.clients i) a).map
        (fun r => ⟨r.1, Function.update s.clients i r.2⟩)
    | .env e => (p.env s.world e).map (fun w => ⟨w, s.clients⟩)

variable {p : Pool Id World Client Act Env}

theorem act_step {s t : State Id World Client} {i : Id} {a : Act} :
    p.machine.step s (.act i a) = some t ↔
      ∃ w k, p.step i s.world (s.clients i) a = some (w, k) ∧
        t = ⟨w, Function.update s.clients i k⟩ := by
  simp only [machine, Option.map_eq_some_iff, Prod.exists]
  constructor
  · intro hx
    obtain ⟨w, k, h, rfl⟩ := hx
    exact ⟨w, k, h, rfl⟩
  · intro hx
    obtain ⟨w, k, h, rfl⟩ := hx
    exact ⟨w, k, h, rfl⟩

theorem env_step {s t : State Id World Client} {e : Env} :
    p.machine.step s (.env e) = some t ↔
      ∃ w, p.env s.world e = some w ∧ t = ⟨w, s.clients⟩ := by
  simp only [machine, Option.map_eq_some_iff]
  constructor
  · intro hx
    obtain ⟨w, h, rfl⟩ := hx
    exact ⟨w, h, rfl⟩
  · intro hx
    obtain ⟨w, h, rfl⟩ := hx
    exact ⟨w, h, rfl⟩

/-- The world satisfies `I`, and every client is consistent with it. -/
def Good (I : World → Prop) (K : Id → World → Client → Prop) (s : State Id World Client) : Prop :=
  I s.world ∧ ∀ i, K i s.world (s.clients i)

/-- Each step answers for the world and its own client, and leaves every other
client consistent with the changed world. -/
theorem good_of_exec {I : World → Prop} {K : Id → World → Client → Prop}
    {ok : State Id World Client → Action Id Act Env → Prop}
    (act : ∀ s i a w k, Good I K s → ok s (.act i a) →
      p.step i s.world (s.clients i) a = some (w, k) →
      I w ∧ K i w k ∧ ∀ j, j ≠ i → K j w (s.clients j))
    (env : ∀ s e w, Good I K s → ok s (.env e) → p.env s.world e = some w →
      I w ∧ ∀ j, K j w (s.clients j))
    {as : List (Action Id Act Env)} {s t : State Id World Client} (hs : Good I K s)
    (h : p.machine.exec s as = some t) (hm : p.machine.Meets ok s as) : Good I K t := by
  refine exec_invariant_of_meets ?_ hs h hm
  intro s a t hg hok hs
  cases a with
  | act i a =>
    obtain ⟨w, k, hw, rfl⟩ := act_step.mp hs
    obtain ⟨hI, hi, hj⟩ := act s i a w k hg hok hw
    refine ⟨hI, fun j => ?_⟩
    by_cases he : j = i
    · subst j
      simpa using hi
    · simpa [he] using hj j he
  | env e =>
    obtain ⟨w, hw, rfl⟩ := env_step.mp hs
    exact env s e w hg hok hw

theorem good_of_meets {I : World → Prop} {K : Id → World → Client → Prop}
    {ok : State Id World Client → Action Id Act Env → Prop}
    (start : Good I K p.machine.start)
    (act : ∀ s i a w k, Good I K s → ok s (.act i a) →
      p.step i s.world (s.clients i) a = some (w, k) →
      I w ∧ K i w k ∧ ∀ j, j ≠ i → K j w (s.clients j))
    (env : ∀ s e w, Good I K s → ok s (.env e) → p.env s.world e = some w →
      I w ∧ ∀ j, K j w (s.clients j))
    {as : List (Action Id Act Env)} {s : State Id World Client} (h : p.machine.Reaches as s)
    (hm : p.machine.Meets ok p.machine.start as) : Good I K s :=
  good_of_exec act env start h hm

theorem good_of_reaches {I : World → Prop} {K : Id → World → Client → Prop}
    (start : Good I K p.machine.start)
    (act : ∀ s i a w k, Good I K s →
      p.step i s.world (s.clients i) a = some (w, k) →
      I w ∧ K i w k ∧ ∀ j, j ≠ i → K j w (s.clients j))
    (env : ∀ s e w, Good I K s → p.env s.world e = some w → I w ∧ ∀ j, K j w (s.clients j))
    {as : List (Action Id Act Env)} {s : State Id World Client} (h : p.machine.Reaches as s) :
    Good I K s :=
  good_of_meets start (fun s i a w k hg _ => act s i a w k hg) (fun s e w hg _ => env s e w hg) h
    (meets_trivial _ _)

end Pool
end BackendTemplates.Runs
