import MarketTrader.Execution.CapResidue
import MarketTrader.Execution.Idempotency

namespace MarketTrader.Execution

open Library MarketTrader.Core Storage Config Portfolio

variable {β : Type} {D : Digests} {B : Broker β} {b : β} {w : World β} {asOf : Datetime}
  {positions : List Position}

/-- An order that a broker is handed adds to the open orders at most itself. -/
structure KeepsOpen (B : Broker β) : Prop where
  refuse : ∀ b o reason b', B.submitOrder b o = (.error reason, b') →
    B.getOpenOrders b' = B.getOpenOrders b
  take : ∀ b o answer b', B.submitOrder b o = (.ok answer, b') → ∃ own,
    B.getOpenOrders b' = B.getOpenOrders b ++ own ∧
      ∀ p ∈ own, p.clientOrderId = o.clientOrderId

/-- The positions whose closing order is taken. -/
def closed (B : Broker β) (asOf : Datetime) : List Position → β → List Position
  | [], _ => []
  | pos :: rest, b =>
    match B.submitOrder b (closingOrder asOf pos) with
    | (.error _, _) => []
    | (.ok _, b') => pos :: closed B asOf rest b'

/-- The broker refuses no closing order that has another one after it. -/
def RefusesOnlyLast (B : Broker β) (asOf : Datetime) : List Position → β → Prop
  | [], _ => True
  | pos :: rest, b =>
    (rest = [] ∨ ∃ answer, (B.submitOrder b (closingOrder asOf pos)).1 = .ok answer) ∧
      RefusesOnlyLast B asOf rest (B.submitOrder b (closingOrder asOf pos)).2

/-- What the name comes to once the closing orders that were taken have filled. -/
def remainder (B : Broker β) (b : β) (asOf : Datetime) (symbol : String) : ℚ :=
  if symbol ∈ (closed B asOf (B.getPositions b) b).map Position.symbol then 0
  else B.holding b symbol

/-- The open order is a closing one, or takes what is then left of its name nearer to nothing. -/
def Harmless (B : Broker β) (b : β) (asOf : Datetime) (o : Order) : Prop :=
  (∃ pos ∈ B.getPositions b, o.clientOrderId = (closingOrder asOf pos).clientOrderId) ∨
    remainder B b asOf o.symbol + o.openQty ∈ Set.uIcc 0 (remainder B b asOf o.symbol)

theorem reached_eq_iff : reached B asOf positions b = positions ↔
    RefusesOnlyLast B asOf positions b := by
  induction positions generalizing b with
  | nil => simp [reached, RefusesOnlyLast]
  | cons pos rest ih =>
    rw [reached, RefusesOnlyLast]
    rcases B.submitOrder b (closingOrder asOf pos) with ⟨answer, b'⟩
    cases answer with
    | error reason =>
      simp only [List.cons.injEq, true_and, reduceCtorEq, exists_false, or_false]
      constructor
      · rintro rfl
        exact ⟨rfl, trivial⟩
      · rintro ⟨rfl, -⟩
        rfl
    | ok answer =>
      simp only [List.cons.injEq, true_and, Except.ok.injEq, exists_eq', or_true]
      exact ih

theorem openOrders_sendAll (hB : KeepsOpen B) (orders : List Order) : ∃ own,
    B.getOpenOrders (w.sendAll B orders).broker = B.getOpenOrders w.broker ++ own ∧
      ∀ p ∈ own, ∃ o ∈ orders, p.clientOrderId = o.clientOrderId := by
  induction orders generalizing w with
  | nil => exact ⟨[], (List.append_nil _).symm, by simp⟩
  | cons o orders ih =>
    have hs : w.sendAll B (o :: orders) = (w.submit B o).2.sendAll B orders := rfl
    have hb : (w.submit B o).2.broker = (B.submitOrder w.broker o).2 := rfl
    obtain ⟨own, he, hown⟩ := ih (w := (w.submit B o).2)
    have hown' : ∀ p ∈ own, ∃ o' ∈ o :: orders, p.clientOrderId = o'.clientOrderId := by
      intro p hp
      obtain ⟨o', ho', hid⟩ := hown p hp
      exact ⟨o', List.mem_cons_of_mem _ ho', hid⟩
    rw [hs, he, hb]
    rcases hsubmit : B.submitOrder w.broker o with ⟨answer, b'⟩
    cases answer with
    | error reason => exact ⟨own, by rw [hB.refuse _ _ _ _ hsubmit], hown'⟩
    | ok answer =>
      obtain ⟨mine, hopen, hmine⟩ := hB.take _ _ _ _ hsubmit
      refine ⟨mine ++ own, by rw [hopen, List.append_assoc], fun p hp ↦ ?_⟩
      rcases List.mem_append.mp hp with hp | hp
      · exact ⟨o, List.mem_cons_self, hmine p hp⟩
      · exact hown' p hp

theorem haltAndFlatten_world (e : ExecutionEngine) (w : World β) (asOf : Datetime) :
    ∃ store, (haltAndFlatten D B e w asOf).world =
      { w.sendAll B ((reached B asOf (B.getPositions w.broker) w.broker).map (closingOrder asOf))
        with store := store } :=
  flattenAll_world { e with killSwitch := e.killSwitch.engage "manual_kill" } asOf
    (B.getPositions w.broker) w []

def refusingBroker (refuses : Order → Bool) : Broker PaperBroker :=
  { paperBroker with
    submitOrder := fun b o ↦ if refuses o then (.error "rejected", b) else b.submitOrder o }

theorem keepsOpen_paperBroker : KeepsOpen paperBroker where
  refuse b o reason b' h := by
    have hok : ∃ answer, (b.submitOrder o).1 = .ok answer := by
      unfold PaperBroker.submitOrder
      split
      · exact ⟨_, rfl⟩
      · split
        · exact ⟨_, rfl⟩
        · split
          · split <;> exact ⟨_, rfl⟩
          · exact ⟨_, rfl⟩
    obtain ⟨answer, ha⟩ := hok
    have herror : (b.submitOrder o).1 = .error reason := congrArg Prod.fst h
    rw [ha] at herror
    cases herror
  take b o answer b' h := by
    obtain rfl : (b.submitOrder o).2 = b' := congrArg Prod.snd h
    have hrecord : ∀ (b : PaperBroker) (o' : Order), o'.clientOrderId ∉ b.orders.keys →
        ∃ own, (b.record o').getOpenOrders = b.getOpenOrders ++ own ∧
          ∀ p ∈ own, p.clientOrderId = o'.clientOrderId := by
      intro b o' hnew
      refine ⟨[o'].filter (·.status ∈ [.new, .submitted, .accepted, .partiallyFilled]), ?_, ?_⟩
      · rw [PaperBroker.getOpenOrders, PaperBroker.toList_record_of_not_mem hnew,
          List.filter_append]
        rfl
      · intro p hp
        rw [List.mem_singleton.mp (List.mem_of_mem_filter hp)]
    rcases b.submitOrder_cases o with ⟨-, he⟩ | ⟨hnew, o', hid, -, he⟩ | ⟨hnew, price, -, he⟩
    · exact ⟨[], by rw [he, List.append_nil], by simp⟩
    · rw [he, ← hid]
      exact hrecord b o' (hid ▸ hnew)
    · rw [he]
      exact hrecord (b.fill o.symbol o.signedQty price) _ hnew

theorem keepsOpen_refusingBroker (refuses : Order → Bool) : KeepsOpen (refusingBroker refuses) where
  refuse b o reason b' h := by
    simp only [refusingBroker] at h
    split at h
    · obtain rfl : b = b' := congrArg Prod.snd h
      rfl
    · exact keepsOpen_paperBroker.refuse b o reason b' h
  take b o answer b' h := by
    simp only [refusingBroker] at h
    split at h
    · cases congrArg Prod.fst h
    · exact keepsOpen_paperBroker.take b o answer b' h

/-- Two positions, and no open order. -/
def twoPositions : World PaperBroker where
  broker :=
    { prices := .ofList [("A", 1), ("B", 1)], cash := 0
      positions := .ofList [⟨"A", 5, 1⟩, ⟨"B", 5, 1⟩] }
  store := .empty
  submitted := []

end MarketTrader.Execution
