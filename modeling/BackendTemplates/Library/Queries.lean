import Mathlib.Data.List.Basic

namespace BackendTemplates.Queries

/-- A computation that asks backends and does not catch what they raise. -/
inductive Prog (Query : Type) (Answer : Query → Type) (α : Type) where
  | done (a : α)
  | raise (message : String)
  | ask (q : Query) (next : Answer q → Prog Query Answer α)

/-- How a computation ends. -/
inductive Outcome (α : Type) where
  | returned (a : α)
  | raised (message : String)
  | unavailable
  deriving DecidableEq

variable {Query : Type} {Answer : Query → Type} {α β : Type}

namespace Prog

def bind : Prog Query Answer α → (α → Prog Query Answer β) → Prog Query Answer β
  | .done a, f => f a
  | .raise message, _ => .raise message
  | .ask q next, f => .ask q (fun answer => (next answer).bind f)

def map (g : α → β) : Prog Query Answer α → Prog Query Answer β
  | .done a => .done (g a)
  | .raise message => .raise message
  | .ask q next => .ask q (fun answer => (next answer).map g)

/-- Whatever answers of this kind it gets, a computation that returns returns such a result. -/
def All (A : (q : Query) → Answer q → Prop) (P : α → Prop) : Prog Query Answer α → Prop
  | .done a => P a
  | .raise _ => True
  | .ask q next => ∀ answer, A q answer → (next answer).All A P

end Prog

def Outcome.map (g : α → β) : Outcome α → Outcome β
  | .returned a => .returned (g a)
  | .raised message => .raised message
  | .unavailable => .unavailable

/-- What the n-th question of a computation would be answered, and whether it fails. -/
structure Backends (Query : Type) (Answer : Query → Type) where
  answer : Nat → (q : Query) → Answer q
  fails : Nat → Query → Bool

/-- The same answers, without a failure. -/
def Backends.healthy (b : Backends Query Answer) : Backends Query Answer :=
  { b with fails := fun _ _ => false }

/-- The questions answered, and the outcome. -/
def run (b : Backends Query Answer) : Nat → Prog Query Answer α → List Query × Outcome α
  | _, .done a => ([], .returned a)
  | _, .raise message => ([], .raised message)
  | n, .ask q next =>
    if b.fails n q then ([], .unavailable)
    else (q :: (run b (n + 1) (next (b.answer n q))).1, (run b (n + 1) (next (b.answer n q))).2)

variable {b : Backends Query Answer}

/-- A failing backend ends a computation; it never makes it go on differently. -/
theorem run_healthy (n : Nat) (p : Prog Query Answer α) :
    (run b n p).2 = .unavailable ∨ run b n p = run b.healthy n p := by
  induction p generalizing n with
  | done a => exact .inr rfl
  | raise message => exact .inr rfl
  | ask q next ih =>
    by_cases hf : b.fails n q = true
    · left
      simp [run, hf]
    · rcases ih (b.answer n q) (n + 1) with hu | he
      · left
        simp [run, hf, hu]
      · right
        simp only [run, hf, he, Bool.false_eq_true, if_false]
        rfl

theorem map_bind {γ : Type} (p : Prog Query Answer α) (f : α → Prog Query Answer β)
    (g : β → γ) : (p.bind f).map g = p.bind (fun a => (f a).map g) := by
  induction p with
  | done a => rfl
  | raise message => rfl
  | ask q next ih => simp only [Prog.bind, Prog.map, ih]

theorem map_map {γ : Type} (p : Prog Query Answer α) (f : α → β) (g : β → γ) :
    (p.map f).map g = p.map (g ∘ f) := by
  induction p with
  | done a => rfl
  | raise message => rfl
  | ask q next ih => simp only [Prog.map, ih]

theorem run_map (g : α → β) (n : Nat) (p : Prog Query Answer α) :
    run b n (p.map g) = ((run b n p).1, (run b n p).2.map g) := by
  induction p generalizing n with
  | done a => rfl
  | raise message => rfl
  | ask q next ih =>
    by_cases hf : b.fails n q = true
    · simp [run, Prog.map, hf, Outcome.map]
    · simp [run, Prog.map, hf, ih]

/-- A computation that returns has gone through both of its parts, one after the other. -/
theorem run_bind {p : Prog Query Answer α} {f : α → Prog Query Answer β} {n : Nat} {c : β}
    (h : (run b n (p.bind f)).2 = .returned c) : ∃ a, (run b n p).2 = .returned a ∧
      (run b (n + (run b n p).1.length) (f a)).2 = .returned c ∧
      (run b n (p.bind f)).1 =
        (run b n p).1 ++ (run b (n + (run b n p).1.length) (f a)).1 := by
  induction p generalizing n with
  | done a => exact ⟨a, rfl, h, rfl⟩
  | raise message => cases h
  | ask q next ih =>
    by_cases hf : b.fails n q = true
    · simp [run, Prog.bind, hf] at h
    · simp only [run, Prog.bind, hf, Bool.false_eq_true, if_false, List.length_cons] at h ⊢
      obtain ⟨a, ha, hc, hq⟩ := ih (b.answer n q) h
      have hn : n + ((run b (n + 1) (next (b.answer n q))).1.length + 1) =
          n + 1 + (run b (n + 1) (next (b.answer n q))).1.length := by omega
      exact ⟨a, ha, by rw [hn]; exact hc, by rw [hn, hq]; rfl⟩

theorem Prog.All.bind {A : (q : Query) → Answer q → Prop} {P : α → Prop} {Q : β → Prop}
    {p : Prog Query Answer α} {f : α → Prog Query Answer β} (h : p.All A P)
    (next : ∀ a, P a → (f a).All A Q) : (p.bind f).All A Q := by
  induction p with
  | done a => exact next a h
  | raise message => trivial
  | ask q _ ih => exact fun answer ha => ih answer (h answer ha)

end BackendTemplates.Queries
