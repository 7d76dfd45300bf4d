import Mathlib.Data.List.Basic
import BackendTemplates.Library.Runs

namespace BackendTemplates.Media
open Runs

/-- Per-process cap on concurrent subscribers. -/
structure FeedLimiter where
  max : Nat
  active : Nat
  deriving DecidableEq

def FeedLimiter.tryAcquire (limiter : FeedLimiter) : Bool × FeedLimiter :=
  if limiter.active ≥ limiter.max then (false, limiter)
  else (true, { limiter with active := limiter.active + 1 })

def FeedLimiter.release (limiter : FeedLimiter) : FeedLimiter :=
  { limiter with active := limiter.active - 1 }

namespace Feed

/-- How a response whose body has started comes to its end. -/
inductive Ending where
  | returned
  | error
  | disconnected
  deriving DecidableEq

/-- Where one feed request stands. An admitted request has its response prepared before the
server starts its body, and a refusal records how many requests were then open. -/
inductive Request where
  | prepared
  | streaming
  | ended (ending : Ending)
  | dropped
  | refused (opened : Nat)
  deriving DecidableEq

/-- Admitted and not yet ended. -/
def Request.isOpen : Request → Bool
  | .prepared => true
  | .streaming => true
  | _ => false

structure Server where
  limiter : FeedLimiter
  requests : List Request
  deriving DecidableEq

def Server.opened (s : Server) : Nat := s.requests.countP Request.isOpen

inductive Act where
  | feed
  | start (request : Nat)
  | finish (request : Nat) (ending : Ending)
  | drop (request : Nat)
  deriving DecidableEq

def Server.move (s : Server) (request : Nat) (phase : Request) : Server :=
  { s with requests := s.requests.set request phase }

/-- `VideoFeedController.feed` -/
def Server.feed (s : Server) : Server :=
  match s.limiter.tryAcquire with
  | (false, limiter) => ⟨limiter, s.requests ++ [.refused s.opened]⟩
  | (true, limiter) => ⟨limiter, s.requests ++ [.prepared]⟩

def step (s : Server) : Act → Option Server
  | .feed => some s.feed
  | .start request =>
    if s.requests[request]? = some .prepared then some (s.move request .streaming) else none
  -- each ending of a started generator runs its `finally`
  | .finish request ending =>
    if s.requests[request]? = some .streaming then
      some { s.move request (.ended ending) with limiter := s.limiter.release }
    else none
  -- a generator that was never advanced has no `finally` to run
  | .drop request =>
    if s.requests[request]? = some .prepared then some (s.move request .dropped) else none

def machine (max : Nat) : Machine Server Act where
  start := ⟨⟨max, 0⟩, []⟩
  step := step

/-- The slots taken are the requests open, within the maximum, and a refusal found them all
taken. -/
structure Tight (max : Nat) (s : Server) : Prop where
  configured : s.limiter.max = max
  active : s.limiter.active = s.opened
  bound : s.limiter.active ≤ max
  refusals : ∀ opened, .refused opened ∈ s.requests → opened = max

def Act.isDrop : Act → Bool
  | .drop _ => true
  | _ => false

section
variable {max : Nat} {s t : Server}

/-- The count of open requests when one request moves on. -/
theorem opened_move {request : Nat} {before phase : Request}
    (h : s.requests[request]? = some before) :
    (s.move request phase).opened + (if before.isOpen then 1 else 0) =
      s.opened + (if phase.isOpen then 1 else 0) := by
  obtain ⟨hlt, hat⟩ := List.getElem?_eq_some_iff.mp h
  simp only [Server.opened, Server.move, List.countP_set hlt, hat]
  split
  · rename_i hopen
    have hpos : 0 < s.requests.countP Request.isOpen := by
      apply List.countP_pos_iff.mpr
      exact ⟨before, List.mem_of_getElem? h, hopen⟩
    omega
  · omega

theorem refused_move {request : Nat} {phase : Request} (hphase : ∀ opened, phase ≠ .refused opened)
    {opened : Nat} (h : .refused opened ∈ (s.move request phase).requests) :
    .refused opened ∈ s.requests := by
  rcases List.mem_or_eq_of_mem_set h with h | h
  · exact h
  · exact absurd h.symm (hphase opened)

theorem feed_full (h : s.limiter.max ≤ s.limiter.active) :
    s.feed = ⟨s.limiter, s.requests ++ [.refused s.opened]⟩ := by
  simp [Server.feed, FeedLimiter.tryAcquire, h]

theorem feed_free (h : s.limiter.active < s.limiter.max) :
    s.feed = ⟨{ s.limiter with active := s.limiter.active + 1 }, s.requests ++ [.prepared]⟩ := by
  simp [Server.feed, FeedLimiter.tryAcquire, Nat.not_le.mpr h]

theorem Tight.feed (h : Tight max s) : Tight max s.feed := by
  obtain ⟨hmax, hactive, hbound, hrefusals⟩ := h
  rcases Nat.lt_or_ge s.limiter.active s.limiter.max with hfree | hfull
  · rw [feed_free hfree]
    refine ⟨hmax, ?_, ?_, ?_⟩
    · simp [hactive, Server.opened, Request.isOpen]
    · change s.limiter.active + 1 ≤ max
      omega
    · intro opened hm
      apply hrefusals opened
      simpa using hm
  · rw [feed_full hfull]
    refine ⟨hmax, ?_, hbound, ?_⟩
    · simp [hactive, Server.opened, Request.isOpen]
    · intro opened hm
      rcases List.mem_append.mp hm with hm | hm
      · exact hrefusals opened hm
      · obtain rfl : opened = s.opened := by simpa using hm
        omega

theorem Tight.start (h : Tight max s) {request : Nat}
    (hat : s.requests[request]? = some .prepared) : Tight max (s.move request .streaming) := by
  have hmove : (s.move request .streaming).opened + 1 = s.opened + 1 := opened_move hat
  refine ⟨h.configured, ?_, h.bound, ?_⟩
  · calc s.limiter.active = s.opened := h.active
      _ = (s.move request .streaming).opened := (Nat.succ.inj hmove).symm
  · intro opened hm
    exact h.refusals opened (refused_move (by simp) hm)

/-- The release of a request that was open never meets the zero it saturates at. -/
theorem Tight.finish (h : Tight max s) {request : Nat} {ending : Ending}
    (hat : s.requests[request]? = some .streaming) :
    Tight max { s.move request (.ended ending) with limiter := s.limiter.release } := by
  have hmove : (s.move request (.ended ending)).opened + 1 = s.opened := opened_move hat
  refine ⟨h.configured, ?_, ?_, ?_⟩
  · calc s.limiter.active - 1 = s.opened - 1 := by rw [h.active]
      _ = (s.move request (.ended ending)).opened := by omega
  · exact Nat.le_trans (Nat.sub_le _ _) h.bound
  · intro opened hm
    exact h.refusals opened (refused_move (by simp) hm)

/-- A dropped response leaves its slot taken. -/
theorem Tight.drop (h : Tight max s) {request : Nat}
    (hat : s.requests[request]? = some .prepared) : ¬ Tight max (s.move request .dropped) := by
  intro hdrop
  have hmove : (s.move request .dropped).opened + 1 = s.opened := opened_move hat
  have hbefore := h.active
  have hafter : s.limiter.active = (s.move request .dropped).opened := hdrop.active
  omega

/-- A step keeps the slots tight exactly if it drops no admitted request. -/
theorem tight_step_iff (h : Tight max s) {a : Act} (ht : step s a = some t) :
    Tight max t ↔ a.isDrop = false := by
  cases a with
  | feed =>
    cases ht
    exact iff_of_true h.feed rfl
  | start request =>
    obtain ⟨hat, ht⟩ := Option.ite_none_right_eq_some.mp ht
    cases ht
    exact iff_of_true (h.start hat) rfl
  | finish request ending =>
    obtain ⟨hat, ht⟩ := Option.ite_none_right_eq_some.mp ht
    cases ht
    exact iff_of_true (h.finish hat) rfl
  | drop request =>
    obtain ⟨hat, ht⟩ := Option.ite_none_right_eq_some.mp ht
    cases ht
    exact iff_of_false (h.drop hat) (by simp [Act.isDrop])

end

/-- No slot leaks in any state of a run exactly if each admitted response gets as far as the
start of its body. -/
theorem slots_tight_iff {max : Nat} {as : List Act} {s : Server}
    (h : (machine max).Reaches as s) :
    (∀ bs t, bs <+: as → (machine max).Reaches bs t → Tight max t) ↔
      ∀ a ∈ as, a.isDrop = false := by
  rw [← meets_action h]
  apply h.throughout_iff
  · exact ⟨rfl, rfl, Nat.zero_le max, by simp [machine]⟩
  · intro _ s a t _ hs ht
    exact tight_step_iff hs ht

/-- Two slots, three requests and every way for a started body to end. -/
def everyEnding : List Act :=
  [.feed, .feed, .start 0, .start 1, .feed, .finish 0 .disconnected, .feed,
    .finish 1 .error, .start 3, .finish 3 .returned]

theorem every_ending_is_tight : ∃ s, (machine 2).Reaches everyEnding s ∧
    s.requests = [.ended .disconnected, .ended .error, .refused 2, .ended .returned] ∧
    ∀ bs t, bs <+: everyEnding → (machine 2).Reaches bs t → Tight 2 t := by
  have hr : ((machine 2).exec (machine 2).start everyEnding).map Server.requests =
      some [.ended .disconnected, .ended .error, .refused 2, .ended .returned] := by decide
  obtain ⟨s, hs, hrequests⟩ := Machine.reaches_of_map hr
  exact ⟨s, hs, hrequests, (slots_tight_iff hs).mpr (by decide)⟩

/-- One slot and one response dropped before its body: the feed is refused with none open. -/
theorem dropped_response_leaks :
    ¬ ∀ (max : Nat) (as : List Act) (s : Server), (machine max).Reaches as s → Tight max s := by
  intro hall
  have hr : ((machine 1).exec (machine 1).start [.feed, .drop 0, .feed]).map Server.requests =
      some [.dropped, .refused 0] := by decide
  obtain ⟨s, hs, hrequests⟩ := Machine.reaches_of_map hr
  have hrefused : 0 = 1 := (hall 1 _ s hs).refusals 0 (by simp [hrequests])
  exact absurd hrefused (by decide)

end Feed
end BackendTemplates.Media
