import MarketTrader.Execution.Governor
import MarketTrader.Execution.LiveGate

namespace MarketTrader.Execution

open Library MarketTrader.Core Storage Config Portfolio

variable {β : Type} (D : Digests) (B : Broker β) (settings : Settings)

namespace DailyCall

/-- The equity that the cycle finds is below the previous close by the daily limit or more. -/
def Breaches (w : World β) (c : DailyCall β) : Prop :=
  (dailyLoss settings (B.getAccount (c.market w.broker))).isSome

/-- The cycle has nothing to send for reasons of its own: a gate that its own engine and account
close, a target over a limit, or no name worth an order. -/
def Idles (w : World β) (c : DailyCall β) : Prop :=
  Idle B ⟨c.engine settings w, c.opening w⟩ (.rebalance c.target c.prices c.asOf)

theorem submitted_prefix (w : World β) (c : DailyCall β) :
    w.submitted <+: (c.step D B settings w).submitted :=
  submitted_prefix_step D B ⟨c.engine settings w, c.opening w⟩
    (.rebalance c.target c.prices c.asOf)

theorem submitted_eq_iff (w : World β) (c : DailyCall β) :
    (c.step D B settings w).submitted = w.submitted ↔ c.Idles B settings w :=
  submitted_step_eq_iff D B ⟨c.engine settings w, c.opening w⟩
    (.rebalance c.target c.prices c.asOf)

end DailyCall

/-- The daily-loss kill outlives its cycle exactly when every later cycle is idle for reasons of
its own: the switch that it engages belongs to an engine that is gone. -/
theorem daily_loss_latches_iff (w : World β) (calls : List (DailyCall β)) :
    let step := DailyCall.step D B settings
    (∀ before c after, calls = before ++ c :: after → c.Breaches B settings (run step w before) →
      (run step w calls).submitted = (step (run step w before) c).submitted) ↔
    (∀ before c after, calls = before ++ c :: after → c.Breaches B settings (run step w before) →
      Along step (DailyCall.Idles B settings) (step (run step w before) c) after) := by
  intro step
  refine forall_congr' fun before ↦ forall_congr' fun c ↦ forall_congr' fun after ↦
    imp_congr_right fun hcalls ↦ imp_congr_right fun _ ↦ ?_
  subst hcalls
  rw [run_append, run_cons]
  have hl := log_run_eq_iff (DailyCall.submitted_prefix D B settings)
    (step (run step w before) c) after
  exact hl.trans (Along.congr (DailyCall.submitted_eq_iff D B settings))

/-- A day that loses a tenth halts; the next day, measured from its own close, trades. -/
theorem daily_loss_forgotten_next_day :
    ¬∀ (β : Type) (D : Digests) (B : Broker β) (settings : Settings) (w : World β)
      (calls : List (DailyCall β)),
      let step := DailyCall.step D B settings
      ∀ before c after, calls = before ++ c :: after → c.Breaches B settings (run step w before) →
        (run step w calls).submitted = (step (run step w before) c).submitted := by
  intro h
  let call (lastEquity : ℚ) (t : Datetime) : DailyCall Account :=
    { market := fun _ ↦ { equity := 90, cash := 90, buyingPower := 90, lastEquity := lastEquity }
      now := t, limits := {}, target := .ofList [("A", 1 / 10)], prices := .ofList [("A", 1)]
      asOf := t }
  have hs := h Account .plain accountBroker {} ⟨⟨100, 100, 100, 100⟩, .empty, []⟩
    [call 100 0, call 90 1] [] (call 100 0) [call 90 1] rfl (by
      simp only [DailyCall.Breaches]
      decide +kernel)
  have hl := congrArg List.length hs
  revert hl
  decide +kernel

end MarketTrader.Execution
