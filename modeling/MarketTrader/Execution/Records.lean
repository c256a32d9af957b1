import MarketTrader.Execution.Submission

namespace MarketTrader.Execution

open Library MarketTrader.Core Storage Config Portfolio

variable {β : Type} {D : Digests} {B : Broker β}

def IsAudit (D : Digests) (o : Observation) : Prop :=
  ∃ asOf symbol event detail, o = auditRow D asOf symbol event detail

def IsDrawdown (D : Digests) (o : Observation) : Prop :=
  ∃ asOf peak tripped, o = drawdownRow D asOf peak tripped

/-- What execution writes: with a store to audit, the trail of its actions. -/
abbrev Audits (D : Digests) (e : ExecutionEngine) :
    InMemoryBitemporalStore → InMemoryBitemporalStore → Prop :=
  Keyed.ExtendedBy (fun o ↦ e.audited ∧ IsAudit D o)

theorem audits_audit (e : ExecutionEngine) (w : World β) (asOf : Datetime)
    (symbol event : String) (detail : List (String × Value)) :
    Audits D e w.store (w.audit D e asOf symbol event detail).store := by
  simp only [World.audit, ExecutionEngine.audit]
  split
  · next ha => exact .insert ⟨ha, _, _, _, _, rfl⟩
  · exact .refl _

theorem World.submit_store (w : World β) (order : Order) :
    (w.submit B order).2.store = w.store := rfl

theorem audits_submitAll (e : ExecutionEngine) (asOf : Datetime) (planned : List (Order × ℚ))
    (s : Submission β) :
    Audits D e s.world.store (submitAll D B e asOf planned s).world.store := by
  induction planned generalizing s with
  | nil => exact .refl _
  | cons p rest ih =>
    obtain ⟨order, price⟩ := p
    rw [submitAll]
    split
    · exact (audits_audit e s.world asOf _ _ _).trans (ih _)
    · split
      · exact audits_audit e s.world asOf _ _ _
      · have hw := World.submit_store (B := B) s.world order
        rcases hb : s.world.submit B order with ⟨answer, world⟩
        rw [hb] at hw
        rw [← hw]
        cases answer with
        | error reason => exact (audits_audit e world asOf _ _ _).trans (ih _)
        | ok filled => exact (audits_audit e world asOf _ _ _).trans (ih _)

theorem audits_executePlan (e : ExecutionEngine) (w : World β) (target prices : Dict String ℚ)
    (asOf : Datetime) : Audits D e w.store (executePlan D B e w target prices asOf).world.store := by
  have hs := audits_submitAll (D := D) (B := B) e asOf (plan e.settings (deployable e.settings
    (B.getAccount w.broker)) target prices (B.effective w.broker) asOf)
    { world := w, rateLimiter := e.rateLimiter }
  unfold executePlan
  dsimp only
  split
  · exact hs.trans (audits_audit e _ asOf _ _ _)
  · exact hs

variable {e : ExecutionEngine} {w : World β} {target prices : Dict String ℚ} {asOf : Datetime}

variable (D B w target prices asOf) in
theorem rebalance_of_blocked (h : Blocked e) : ∃ err,
    rebalance D B e w target prices asOf = ⟨.error err, e, w⟩ ∧
      err ≠ .killSwitchEngaged .drawdown := by
  obtain ⟨err, he, hne⟩ := passGates_blocked D B w asOf h
  exact ⟨err, by rw [rebalance, he], hne⟩

theorem rebalance_of_tripped (h : ¬Blocked e)
    (ht : (e.breaker.update (B.getAccount w.broker).equity).tripped) :
    rebalance D B e w target prices asOf =
      let e₁ := e.observe (B.getAccount w.broker)
      ⟨.error (.killSwitchEngaged .drawdown),
        { e₁ with killSwitch := e₁.killSwitch.engage "drawdown_circuit_breaker" },
        (w.observe D B e asOf).audit D e₁ asOf "PORTFOLIO" "halt"
          [("reason", .str "drawdown"), ("peak", .num (e₁.breaker.peak.getD 0))]⟩ := by
  rw [rebalance, passGates_of_not_blocked h]
  dsimp only [ExecutionEngine.observe]
  rw [if_pos ht]

theorem rebalance_of_not_tripped (h : ¬Blocked e)
    (ht : ¬(e.breaker.update (B.getAccount w.broker).equity).tripped) :
    rebalance D B e w target prices asOf =
      let e₁ := e.observe (B.getAccount w.broker)
      let w₁ := w.observe D B e asOf
      match dailyLoss e.settings (B.getAccount w.broker) with
      | some dayReturn =>
        ⟨.error (.killSwitchEngaged (.dailyLoss dayReturn)),
          { e₁ with killSwitch := e₁.killSwitch.engage "daily_loss_limit" },
          w₁.audit D e₁ asOf "PORTFOLIO" "halt"
            [("reason", .str "daily_loss"), ("day_return", .num (roundTo 4 dayReturn))]⟩
      | none =>
        match overLimit target e.limits with
        | some breach => ⟨.error (.riskLimitBreach breach), e₁, w₁⟩
        | none => executePlan D B e₁ w₁ target prices asOf := by
  rw [rebalance, passGates_of_not_blocked h]
  dsimp only [ExecutionEngine.observe]
  rw [if_neg ht]
  cases dailyLoss e.settings (B.getAccount w.broker) <;> rfl

variable (D B w target prices asOf) in
/-- A call that is not turned away reads the account once, saves the mark, and after that only
adds to the audit trail. -/
theorem rebalance_of_not_blocked (h : ¬Blocked e) :
    let out := rebalance D B e w target prices asOf
    out.engine.breaker = e.breaker.update (B.getAccount w.broker).equity ∧
      Audits D e (w.observe D B e asOf).store out.world.store ∧
      (out.result = .error (.killSwitchEngaged .drawdown) ↔
        (e.breaker.update (B.getAccount w.broker).equity).tripped) := by
  by_cases ht : (e.breaker.update (B.getAccount w.broker).equity).tripped
  · rw [rebalance_of_tripped h ht]
    exact ⟨rfl, audits_audit (e.observe _) _ asOf _ _ _, by simp [ht]⟩
  · rw [rebalance_of_not_tripped h ht]
    cases hd : dailyLoss e.settings (B.getAccount w.broker) with
    | some r => exact ⟨rfl, audits_audit (e.observe _) _ asOf _ _ _, by simp [ht]⟩
    | none =>
      cases ho : overLimit target e.limits with
      | some breach => exact ⟨rfl, .refl _, by simp [ht]⟩
      | none =>
        exact ⟨rfl, audits_executePlan (e.observe _) _ target prices asOf, by
          simp [executePlan, ht]⟩

theorem rebalance_store_of_not_audited (h : e.audited = false) :
    (rebalance D B e w target prices asOf).world.store = w.store := by
  by_cases hb : Blocked e
  · obtain ⟨err, he, -⟩ := rebalance_of_blocked D B w target prices asOf hb
    rw [he]
  · obtain ⟨-, ha, -⟩ := rebalance_of_not_blocked D B w target prices asOf hb
    have hs : (w.observe D B e asOf).store = w.store := by
      simp [World.observe, ExecutionEngine.saveDrawdownState, ExecutionEngine.observe, h]
    rw [ha.eq_of_forall_not fun o ho ↦ by simp [h] at ho, hs]

end MarketTrader.Execution
