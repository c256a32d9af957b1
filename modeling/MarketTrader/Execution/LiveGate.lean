import MarketTrader.Execution.Submission
import MarketTrader.Library.Run

namespace MarketTrader.Execution

open Library MarketTrader.Core Storage Config Portfolio

variable {β : Type} (D : Digests) (B : Broker β)

structure Desk (β : Type) where
  engine : ExecutionEngine
  world : World β

/-- What a run is made of: new engines for the same settings, calls on the engine, and whatever
the market does to the broker's books in between. -/
inductive Call (β : Type)
  | construct (limits : Option RiskLimits) (audited : Bool) (killSwitch : Option KillSwitch)
      (breaker : Option DrawdownCircuitBreaker) (rateLimiter : Option OrderRateLimiter)
      (now : Datetime)
  | market (move : β → β)
  | rebalance (target prices : Dict String ℚ) (asOf : Datetime)
  | haltAndFlatten (asOf : Datetime)

def Desk.step (d : Desk β) : Call β → Desk β
  | .construct limits audited killSwitch breaker rateLimiter now =>
    { d with
      engine := .init d.engine.settings limits audited killSwitch breaker rateLimiter
        d.world.store now }
  | .market move => { d with world := { d.world with broker := move d.world.broker } }
  | .rebalance target prices asOf =>
    let out := Execution.rebalance D B d.engine d.world target prices asOf
    ⟨out.engine, out.world⟩
  | .haltAndFlatten asOf =>
    let out := Execution.haltAndFlatten D B d.engine d.world asOf
    ⟨out.engine, out.world⟩

/-- Live mode without the second switch, or in its log-only sub-mode. -/
def Withheld (s : Settings) : Prop :=
  s.executionMode = .live ∧ (s.liveTradingEnabled = false ∨ s.liveDryRun = true)

instance (s : Settings) : Decidable (Withheld s) := inferInstanceAs (Decidable (_ ∧ _))

/-- The call finds nothing to send: a rebalance that another gate stops, whose target is over a
limit, or that finds no name worth an order; a flattening of an empty book. -/
def Idle (d : Desk β) : Call β → Prop
  | .construct .. => True
  | .market _ => True
  | .rebalance target prices _ =>
    let account := B.getAccount d.world.broker
    Stops d.engine account ∨ (overLimit target d.engine.limits).isSome ∨
      d.engine.rateLimiter.room = 0 ∨ ∀ t ∈ target.toList,
        ¬Tradable d.engine.settings (deployable d.engine.settings account) prices
          (B.effective d.world.broker) t.1 t.2
  | .haltAndFlatten _ => B.getPositions d.world.broker = []

theorem flattenAll_submitted (e : ExecutionEngine) (asOf : Datetime) (positions : List Position)
    (w : World β) (orders : List Order) :
    w.submitted <+: (flattenAll D B e asOf positions w orders).2.submitted ∧
      ((flattenAll D B e asOf positions w orders).2.submitted = w.submitted ↔ positions = []) := by
  obtain ⟨store, h⟩ := flattenAll_world (D := D) (B := B) e asOf positions w orders
  have hs : (flattenAll D B e asOf positions w orders).2.submitted =
      w.submitted ++ (reached B asOf positions w.broker).map (closingOrder asOf) := by
    rw [h]
    exact World.sendAll_submitted B w _
  rw [hs, List.append_right_eq_self, List.map_eq_nil_iff, reached_eq_nil]
  exact ⟨List.prefix_append _ _, Iff.rfl⟩

theorem submitted_prefix_step (d : Desk β) (c : Call β) :
    d.world.submitted <+: (d.step D B c).world.submitted := by
  cases c with
  | construct => exact List.prefix_rfl
  | market => exact List.prefix_rfl
  | rebalance target prices asOf =>
    simp only [Desk.step, rebalance_submitted]
    exact List.prefix_append _ _
  | haltAndFlatten asOf => exact (flattenAll_submitted D B _ asOf _ d.world []).1

theorem submitted_step_eq_iff (d : Desk β) (c : Call β) :
    (d.step D B c).world.submitted = d.world.submitted ↔ Idle B d c := by
  cases c with
  | construct => simp [Desk.step, Idle]
  | market => simp [Desk.step, Idle]
  | rebalance target prices asOf =>
    simp only [Desk.step, rebalance_submitted, sentOrders, Idle, List.append_right_eq_self]
    split
    · next h => simp [← or_assoc, h]
    · next h =>
      rw [bookOrders_eq_nil]
      simp [← or_assoc, h]
  | haltAndFlatten asOf => exact (flattenAll_submitted D B _ asOf _ d.world []).2

/-- The live gate holds over a run exactly when no call of it finds anything to send: the log-only
switch is read by no gate, and a flattening passes none. -/
theorem withheld_iff_idle (d : Desk β) (calls : List (Call β)) :
    (Withheld d.engine.settings →
      (run (Desk.step D B) d calls).world.submitted = d.world.submitted) ↔
    (Withheld d.engine.settings → Along (Desk.step D B) (Idle B) d calls) := by
  refine imp_congr_right fun _ ↦ ?_
  have hl := log_run_eq_iff (submitted_prefix_step D B) d calls
  exact hl.trans (Along.congr (submitted_step_eq_iff D B))

/-- One name at 100, an armed engine in the log-only sub-mode, and a target of a tenth. -/
theorem withheld_submits_dry_run :
    ¬∀ (β : Type) (D : Digests) (B : Broker β) (d : Desk β) (calls : List (Call β)),
      Withheld d.engine.settings →
        (run (Desk.step D B) d calls).world.submitted = d.world.submitted := by
  intro h
  let settings : Settings := { executionMode := .live, liveTradingEnabled := true }
  let desk : Desk PaperBroker :=
    { engine := .init settings none false none none none .empty 0
      world := { broker := { prices := .ofList [("A", 100)] }, store := .empty, submitted := [] } }
  have hs := h PaperBroker .plain paperBroker desk
    [.rebalance (.ofList [("A", 1 / 10)]) (.ofList [("A", 100)]) 0] (by decide)
  have hl := congrArg List.length hs
  revert hl
  decide +kernel

end MarketTrader.Execution
