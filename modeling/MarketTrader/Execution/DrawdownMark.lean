import MarketTrader.Execution.Governor
import MarketTrader.Execution.LiveGate
import MarketTrader.Execution.OrderIds

namespace MarketTrader.Execution

open Library MarketTrader.Core Storage Config Portfolio

/-! ### Equities and the halt -/

/-- Some equity was at or below the halt level of the highest one seen before it. -/
def Halted (settings : Settings) (equities : List ℚ) : Prop :=
  ∃ before equity after peak, equities = before ++ equity :: after ∧ before.max? = some peak ∧
    equity ≤ (1 - settings.maxDrawdownHalt) * peak

/-- The breaker has seen all that was read, and nothing in it was a halt. -/
structure Tracks (settings : Settings) (b : DrawdownCircuitBreaker) (equities : List ℚ) : Prop where
  seen : ∀ e ∈ equities, 0 < e ∧ ∃ peak, b.peak = some peak ∧ e ≤ peak
  running : ¬Halted settings equities

variable {settings : Settings} {equities : List ℚ} {b : DrawdownCircuitBreaker} {e : ℚ}

theorem halted_append_singleton : Halted settings (equities ++ [e]) ↔
    Halted settings equities ∨ ∃ peak, equities.max? = some peak ∧
      e ≤ (1 - settings.maxDrawdownHalt) * peak := by
  constructor
  · rintro ⟨before, e', after, peak, heq, hm, hle⟩
    rcases List.eq_nil_or_concat after with rfl | ⟨after, last, rfl⟩
    · obtain ⟨rfl, hl⟩ := List.append_inj' heq rfl
      obtain rfl : e = e' := by simpa using hl
      exact .inr ⟨peak, hm, hle⟩
    · rw [List.concat_eq_append, ← List.cons_append, ← List.append_assoc] at heq
      obtain ⟨rfl, -⟩ := List.append_inj' heq rfl
      exact .inl ⟨before, e', after, peak, rfl, hm, hle⟩
  · rintro (⟨before, e', after, peak, rfl, hm, hle⟩ | ⟨peak, hm, hle⟩)
    · exact ⟨before, e', after ++ [e], peak, by simp, hm, hle⟩
    · exact ⟨equities, e, [], peak, rfl, hm, hle⟩

theorem level_lt_of_not_tripped (he : 0 < e) (ht : ¬(b.update e).tripped) :
    (1 - b.maxDrawdown) * b.raisePeak e < e := by
  have hpos : 0 < b.raisePeak e := DrawdownCircuitBreaker.raisePeak_pos he
  have hlt : -b.maxDrawdown < e / b.raisePeak e - 1 := by
    by_contra hle
    simp [DrawdownCircuitBreaker.update, hpos, not_lt.mp hle] at ht
  have hdiv : 1 - b.maxDrawdown < e / b.raisePeak e := by linarith
  exact (lt_div_iff₀ hpos).mp hdiv

theorem Tracks.update (h : Tracks settings b equities)
    (hm : b.maxDrawdown = settings.maxDrawdownHalt) (he : 0 < e) (ht : ¬(b.update e).tripped) :
    Tracks settings (b.update e) (equities ++ [e]) := by
  have hle : ∀ x ∈ equities, x ≤ b.raisePeak e := by
    intro x hx
    obtain ⟨-, peak, hp, hxp⟩ := h.seen x hx
    rw [DrawdownCircuitBreaker.raisePeak, hp]
    exact hxp.trans (le_max_left _ _)
  have hself : e ≤ b.raisePeak e := by
    unfold DrawdownCircuitBreaker.raisePeak
    split
    · exact le_refl e
    · exact le_max_right _ _
  constructor
  · intro x hx
    refine ⟨?_, _, DrawdownCircuitBreaker.peak_update b e, ?_⟩
    · rcases List.mem_append.mp hx with hx | hx
      · exact (h.seen x hx).1
      · rw [List.mem_singleton.mp hx]
        exact he
    · rcases List.mem_append.mp hx with hx | hx
      · exact hle x hx
      · rw [List.mem_singleton.mp hx]
        exact hself
  · intro hh
    rcases halted_append_singleton.mp hh with hh | ⟨peak, hpeak, hlow⟩
    · exact h.running hh
    · have hmem : peak ∈ equities := List.max?_mem hpeak
      have hlt := level_lt_of_not_tripped he ht
      rw [hm] at hlt
      -- the level of a positive peak is below a positive equity only if it grows with the peak
      have hlevel : 0 < 1 - settings.maxDrawdownHalt :=
        pos_of_mul_pos_left (he.trans_le hlow) (h.seen peak hmem).1.le
      have hmono := mul_le_mul_of_nonneg_left (hle peak hmem) hlevel.le
      linarith

/-- The breaker is tripped, or it has seen all that was read. -/
def Follows (settings : Settings) (b : DrawdownCircuitBreaker) (equities : List ℚ) : Prop :=
  b.tripped ∨ Tracks settings b equities

theorem Follows.tripped (h : Follows settings b equities) (hh : Halted settings equities) :
    b.tripped :=
  h.resolve_right fun ht ↦ ht.running hh

theorem Follows.update (h : Follows settings b equities)
    (hm : b.maxDrawdown = settings.maxDrawdownHalt) (he : 0 < e) :
    Follows settings (b.update e) (equities ++ [e]) := by
  by_cases ht : (b.update e).tripped
  · exact .inl ht
  · rcases h with h | h
    · exact absurd (DrawdownCircuitBreaker.tripped_update_of_tripped h e) ht
    · exact .inr (h.update hm he ht)

/-! ### What a call reads -/

/-- The breaker of an engine that may read the store. -/
def mark (settings : Settings) (store : InMemoryBitemporalStore) (now : Datetime) :
    DrawdownCircuitBreaker :=
  (ExecutionEngine.fresh settings {} true store now).breaker

variable {β : Type} {D : Digests} {B : Broker β}

namespace EngineCall

def outcome (D : Digests) (B : Broker β) (c : EngineCall β) : Outcome β :=
  rebalance D B c.engine c.world c.target c.prices c.asOf

/-- The engine reads the account, unless it is turned away before. -/
def reads (B : Broker β) (c : EngineCall β) : List ℚ :=
  if Blocked c.engine then [] else [(B.getAccount c.world.broker).equity]

/-- The engine finds nothing to send. -/
def Idles (B : Broker β) (c : EngineCall β) : Prop :=
  Idle B ⟨c.engine, c.world⟩ (.rebalance c.target c.prices c.asOf)

variable {c : EngineCall β}

theorem submitted_eq_iff (D : Digests) :
    (c.outcome D B).world.submitted = c.world.submitted ↔ c.Idles B :=
  submitted_step_eq_iff D B ⟨c.engine, c.world⟩ (.rebalance c.target c.prices c.asOf)

theorem idles_of_tripped (h : c.engine.breaker.tripped) : c.Idles B :=
  .inl (.inr (.inl (DrawdownCircuitBreaker.tripped_update_of_tripped h _)))

theorem follows_audited (hD : Function.Injective D.uuid5) (ha : c.engine.audited)
    (hm : c.engine.breaker.maxDrawdown = settings.maxDrawdownHalt)
    (h : Persists D c.world.store c.engine.breaker c.asOf)
    (hf : Follows settings c.engine.breaker equities) (hp : ∀ e ∈ c.reads B, 0 < e) :
    ∃ b, b.maxDrawdown = settings.maxDrawdownHalt ∧
      Persists D (c.outcome D B).world.store b c.asOf ∧
        Follows settings b (equities ++ c.reads B) := by
  by_cases hb : Blocked c.engine
  · obtain ⟨err, he, -⟩ := rebalance_of_blocked D B c.world c.target c.prices c.asOf hb
    have hr : equities ++ c.reads B = equities := by simp [reads, hb]
    have hs : (c.outcome D B).world.store = c.world.store := by rw [outcome, he]
    rw [hr, hs]
    exact ⟨c.engine.breaker, hm, h, hf⟩
  · have hr : c.reads B = [(B.getAccount c.world.broker).equity] := if_neg hb
    have hpos : 0 < (B.getAccount c.world.broker).equity := hp _ (by simp [hr])
    rw [hr]
    exact ⟨c.engine.breaker.update _, hm,
      h.rebalance hD ha hb (le_refl _) hpos c.target c.prices, hf.update hm hpos⟩

theorem follows_unmoved (hm : b.maxDrawdown = settings.maxDrawdownHalt)
    (hf : Follows settings b equities) (hp : ∀ e ∈ c.reads B, 0 < e)
    (hu : ¬b.tripped → ∀ e ∈ c.reads B, b.update e = b) :
    Follows settings b (equities ++ c.reads B) := by
  by_cases ht : b.tripped
  · exact .inl ht
  · by_cases hb : Blocked c.engine
    · have hr : equities ++ c.reads B = equities := by simp [reads, hb]
      rw [hr]
      exact hf
    · have hr : c.reads B = [(B.getAccount c.world.broker).equity] := if_neg hb
      rw [hr] at hp hu ⊢
      have hstep := hf.update hm (hp _ (List.mem_singleton_self _))
      rwa [hu ht _ (List.mem_singleton_self _)] at hstep

end EngineCall

end MarketTrader.Execution
