import MarketTrader.Runtime.LiveCycle

namespace MarketTrader.Runtime

open Config

/-- What the market clock says, or that it could not be asked. -/
inductive Reading
  | opened
  | closed
  | raised
deriving DecidableEq

namespace Reading

def of {ε : Type} : Except ε Bool → Reading
  | .ok true => opened
  | .ok false => closed
  | .error _ => raised

/-- The latest reading that did not raise. -/
def lastSeen (rs : List Reading) : Option Reading := (rs.filter (· ≠ raised)).getLast?

/-- The market is seen closed after it was last seen open. -/
def Ends (before : List Reading) (r : Reading) : Prop :=
  r = closed ∧ lastSeen before = some opened

instance (before : List Reading) (r : Reading) : Decidable (Ends before r) :=
  inferInstanceAs (Decidable (_ ∧ _))

theorem lastSeen_concat (rs : List Reading) (r : Reading) :
    lastSeen (rs ++ [r]) = if r = raised then lastSeen rs else some r := by
  unfold lastSeen
  rw [List.filter_append]
  split
  · next h => simp [h]
  · next h => simp [h]

/-- Seen open after it was seen closed, it was open in between. -/
theorem mem_of_lastSeen {before between : List Reading}
    (h : lastSeen (before ++ closed :: between) = some opened) : opened ∈ between := by
  unfold lastSeen at h
  rw [List.filter_append, List.filter_cons_of_pos (by decide), List.getLast?_append,
    List.getLast?_cons, Option.some_or, Option.some_inj] at h
  cases hb : (between.filter (· ≠ raised)).getLast? with
  | none =>
    rw [hb] at h
    cases h
  | some r =>
    rw [hb, Option.getD_some] at h
    subst h
    exact List.mem_of_mem_filter (List.mem_of_getLast? hb)

end Reading

/-- One pass of the loop: what the clock said, and the outcome of each cycle that was run. -/
structure Poll where
  reading : Reading
  runs : List (Except CycleError CycleResult) := []

/-- What the loop is given to call, over a world of theirs. -/
structure ScheduleCalls (σ : Type) where
  isMarketOpen : σ → Except CycleError Bool × σ
  runCycle : σ → Except CycleError CycleResult × σ
  sleepFn : ℚ → σ → σ
  stop : Option (σ → Bool × σ) := none
  maxIterations : Option ℤ := none

structure ScheduleState (σ : Type) where
  world : σ
  wasOpen : Option Bool := none
  iterations : ℕ := 0
  polls : List Poll := []

variable {σ : Type}

namespace ScheduleCalls

/-- A clock that raises is taken to say what it said before. -/
def nowOpen (wasOpen : Bool) : Except CycleError Bool → Bool
  | .ok isOpen => isOpen
  | .error _ => wasOpen

variable (calls : ScheduleCalls σ)

def poll (s : ScheduleState σ) : ScheduleState σ :=
  let (answer, w) := calls.isMarketOpen s.world
  let wasOpen := s.wasOpen.getD false
  let nowOpen := nowOpen wasOpen answer
  if wasOpen && !nowOpen then
    let (outcome, w) := calls.runCycle w
    ⟨w, some nowOpen, s.iterations + 1, s.polls ++ [⟨.of answer, [outcome]⟩]⟩
  else ⟨w, some nowOpen, s.iterations + 1, s.polls ++ [⟨.of answer, []⟩]⟩

def exhausted (s : ScheduleState σ) : Bool :=
  match calls.maxIterations with
  | none => false
  | some n => n ≤ s.iterations

def halts (s : ScheduleState σ) : Bool × ScheduleState σ :=
  match calls.stop with
  | none => (calls.exhausted s, s)
  | some stop =>
    let (stopped, w) := stop s.world
    (stopped || calls.exhausted s, { s with world := w })

/-- At most so many passes of the loop, and whether it has come to its end. -/
def loop (pollSeconds : ℚ) : ℕ → ScheduleState σ → Bool × ScheduleState σ
  | 0, s => (false, s)
  | fuel + 1, s =>
    match calls.halts s with
    | (true, s) => (true, s)
    | (false, s) =>
      match calls.halts (calls.poll s) with
      | (true, s) => (true, s)
      | (false, s) =>
        loop pollSeconds fuel { s with world := calls.sleepFn pollSeconds s.world }

end ScheduleCalls

/-- The polls of the first passes, and the number that is returned if the loop ends in them. What
is not injected is built from the settings, which must hold the keys. -/
def runDailySchedule (settings : Settings) (injected : Bool) (pollSeconds : ℚ)
    (calls : ScheduleCalls σ) (w : σ) (fuel : ℕ) : Except CycleError (Option ℕ × List Poll) :=
  match if injected then none else liveGate settings with
  | some e => .error e
  | none =>
    match calls.loop pollSeconds fuel { world := w } with
    | (true, s) => .ok (some s.iterations, s.polls)
    | (false, s) => .ok (none, s.polls)

/-! ### What the loop keeps -/

/-- Each pass runs the cycle once if the session has ended, and not at all otherwise. -/
def FiresAtEnds (polls : List Poll) : Prop :=
  ∀ before p, before ++ [p] <+: polls →
    p.runs.length = if Reading.Ends (before.map Poll.reading) p.reading then 1 else 0

structure Scheduled (s : ScheduleState σ) : Prop where
  wasOpen : s.wasOpen.getD false ↔
    Reading.lastSeen (s.polls.map Poll.reading) = some .opened
  fires : FiresAtEnds s.polls
  count : s.iterations = s.polls.length

namespace Scheduled

variable {calls : ScheduleCalls σ} {s : ScheduleState σ}

theorem init (w : σ) : Scheduled ({ world := w } : ScheduleState σ) where
  wasOpen := by simp [Reading.lastSeen]
  fires before p h := by
    have hl := h.length_le
    simp at hl
  count := rfl

theorem move (h : Scheduled s) (w : σ) : Scheduled { s with world := w } :=
  ⟨h.wasOpen, h.fires, h.count⟩

theorem firesAtEnds_concat {polls : List Poll} (h : FiresAtEnds polls) {p : Poll}
    (hp : p.runs.length = if Reading.Ends (polls.map Poll.reading) p.reading then 1 else 0) :
    FiresAtEnds (polls ++ [p]) := by
  intro before q hq
  rcases List.prefix_concat_iff.mp hq with he | hq
  · obtain ⟨rfl, rfl⟩ := List.concat_inj.mp (by simpa using he)
    exact hp
  · exact h before q hq

theorem step (h : Scheduled s) {nowOpen : Bool} {p : Poll} (w : σ)
    (hopen : nowOpen = true ↔
      Reading.lastSeen ((s.polls ++ [p]).map Poll.reading) = some .opened)
    (hp : p.runs.length =
      if Reading.Ends (s.polls.map Poll.reading) p.reading then 1 else 0) :
    Scheduled (⟨w, some nowOpen, s.iterations + 1, s.polls ++ [p]⟩ : ScheduleState σ) where
  wasOpen := hopen
  fires := firesAtEnds_concat h.fires hp
  count := by rw [List.length_append, h.count, List.length_singleton]

theorem poll (h : Scheduled s) : Scheduled (calls.poll s) := by
  have hwas := h.wasOpen
  unfold ScheduleCalls.poll
  rcases calls.isMarketOpen s.world with ⟨answer, w⟩
  dsimp only
  generalize s.wasOpen.getD false = wasOpen at hwas ⊢
  cases answer with
  | error e =>
    rw [ScheduleCalls.nowOpen, Bool.and_not_self]
    refine h.step w ?_ ?_
    · rw [List.map_append, List.map_singleton, Reading.lastSeen_concat]
      exact hwas
    · rw [if_neg fun he ↦ Reading.noConfusion he.1]
      rfl
  | ok nowOpen =>
    cases nowOpen with
    | true =>
      rw [ScheduleCalls.nowOpen, Bool.not_true, Bool.and_false]
      refine h.step w ?_ ?_
      · rw [List.map_append, List.map_singleton, Reading.lastSeen_concat]
        simp [Reading.of]
      · rw [if_neg fun he ↦ Reading.noConfusion he.1]
        rfl
    | false =>
      rw [ScheduleCalls.nowOpen, Bool.not_false, Bool.and_true]
      have hclosed : ∀ runs, (false = true ↔ Reading.lastSeen
          ((s.polls ++ [Poll.mk .closed runs]).map Poll.reading) = some .opened) := by
        intro runs
        rw [List.map_append, List.map_singleton, Reading.lastSeen_concat]
        simp
      split
      · next hfire =>
        have hends : Reading.Ends (s.polls.map Poll.reading) .closed := ⟨rfl, hwas.mp hfire⟩
        exact h.step _ (hclosed _) (if_pos hends).symm
      · next hfire =>
        have hends : ¬Reading.Ends (s.polls.map Poll.reading) .closed :=
          fun he ↦ hfire (hwas.mpr he.2)
        exact h.step _ (hclosed _) (if_neg hends).symm

theorem halts (h : Scheduled s) : Scheduled (calls.halts s).2 := by
  unfold ScheduleCalls.halts
  split
  · exact h
  · exact h.move _

theorem loop (h : Scheduled s) (pollSeconds : ℚ) (fuel : ℕ) :
    Scheduled (calls.loop pollSeconds fuel s).2 := by
  induction fuel generalizing s with
  | zero => exact h
  | succ fuel ih =>
    have h₁ : Scheduled (calls.halts s).2 := h.halts
    unfold ScheduleCalls.loop
    split
    · next hs =>
      rw [hs] at h₁
      exact h₁
    · next s' hs =>
      rw [hs] at h₁
      have h₂ : Scheduled (calls.halts (calls.poll s')).2 := (poll h₁).halts
      split
      · next ht =>
        rw [ht] at h₂
        exact h₂
      · next t ht =>
        rw [ht] at h₂
        exact ih (h₂.move _)

end Scheduled

section End

variable {calls : ScheduleCalls σ} {s : ScheduleState σ}

theorem iterations_poll : (calls.poll s).iterations = s.iterations + 1 := by
  unfold ScheduleCalls.poll
  dsimp only
  split <;> rfl

theorem halts_eq_false {s' : ScheduleState σ} (h : calls.halts s = (false, s')) :
    calls.exhausted s = false ∧ s'.iterations = s.iterations := by
  unfold ScheduleCalls.halts at h
  split at h
  · obtain ⟨he, rfl⟩ := Prod.mk.injEq .. ▸ h
    exact ⟨he, rfl⟩
  · dsimp only at h
    obtain ⟨he, rfl⟩ := Prod.mk.injEq .. ▸ h
    exact ⟨(Bool.or_eq_false_iff.mp he).2, rfl⟩

theorem lt_of_not_exhausted {n : ℤ} (hn : calls.maxIterations = some n)
    (h : calls.exhausted s = false) : s.iterations < n := by
  unfold ScheduleCalls.exhausted at h
  rw [hn] at h
  simpa using h

/-- A loop with a bound ends. -/
theorem loop_ends {n : ℤ} (hn : calls.maxIterations = some n) (pollSeconds : ℚ) (fuel : ℕ)
    (h : n ≤ s.iterations + fuel) : (calls.loop pollSeconds (fuel + 1) s).1 = true := by
  induction fuel generalizing s with
  | zero =>
    unfold ScheduleCalls.loop
    split
    · rfl
    · next s' hs =>
      have hlt := lt_of_not_exhausted hn (halts_eq_false hs).1
      omega
  | succ fuel ih =>
    unfold ScheduleCalls.loop
    split
    · rfl
    · next s' hs =>
      have hpoll : (calls.poll s').iterations = s'.iterations + 1 := iterations_poll
      have hsame := (halts_eq_false hs).2
      split
      · rfl
      · next t ht =>
        have hsame' := (halts_eq_false ht).2
        refine ih ?_
        dsimp only
        omega

end End

/-- The clock blips while the market is open and after it has closed: one run, and it fails. -/
def blips : ScheduleCalls (List Reading) where
  isMarketOpen rs := match rs with
    | .opened :: rs => (.ok true, rs)
    | .closed :: rs => (.ok false, rs)
    | _ => (.error (.runtime "clock"), rs.tail)
  runCycle rs := (.error (.runtime "cycle"), rs)
  sleepFn _ rs := rs
  maxIterations := some 5

end MarketTrader.Runtime
