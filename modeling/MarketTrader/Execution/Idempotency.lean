import MarketTrader.Execution.OrderIds

namespace MarketTrader.Execution

open Library MarketTrader.Core Storage Config Portfolio

variable {β : Type}

/-! ### From one world to another -/

/-- The second world comes from the first by requests to engines, in their order, with changes of
the store, cancelled orders and new quotes in between. Of what a request has built, some may not be
sent. -/
inductive Leads (B : Broker β) (quote : β → String → ℚ → β) :
    World β → List (Request β) → World β → Prop
  | refl (w : World β) : Leads B quote w [] w
  | store {w w' : World β} {rs : List (Request β)} (s : InMemoryBitemporalStore) :
      Leads B quote w rs w' → Leads B quote w rs { w' with store := s }
  | cancel {w w' : World β} {rs : List (Request β)} (id : String) :
      Leads B quote w rs w' →
        Leads B quote w rs { w' with broker := B.cancelOrder w'.broker id }
  | market {w w' : World β} {rs : List (Request β)} (symbol : String) (price : ℚ) :
      Leads B quote w rs w' →
        Leads B quote w rs { w' with broker := quote w'.broker symbol price }
  | send {w w' : World β} {rs : List (Request β)} (r : Request β) {sent : List Order} :
      sent.Sublist (r.built B) → Leads B quote w rs w' →
        Leads B quote w (rs ++ [r]) (w'.sendAll B sent)

namespace Leads

variable {B : Broker β} {quote : β → String → ℚ → β} {w w' w'' : World β}
  {rs rs' : List (Request β)}

theorem trans (h : Leads B quote w rs w') (h' : Leads B quote w' rs' w'') :
    Leads B quote w (rs ++ rs') w'' := by
  induction h' with
  | refl => simpa using h
  | store s _ ih => exact .store s ih
  | cancel id _ ih => exact .cancel id ih
  | market symbol price _ ih => exact .market symbol price ih
  | send r hs _ ih =>
    rw [← List.append_assoc]
    exact .send r hs ih

/-- The broker has been handed orders that the requests have built. -/
theorem submitted (h : Leads B quote w rs w') : ∃ sent,
    w'.submitted = w.submitted ++ sent ∧ sent.Sublist (rs.flatMap (Request.built B)) := by
  induction h with
  | refl => exact ⟨[], by simp, List.nil_sublist _⟩
  | store s _ ih => exact ih
  | cancel id _ ih => exact ih
  | market symbol price _ ih => exact ih
  | send r hs _ ih =>
    obtain ⟨sent, he, hsub⟩ := ih
    refine ⟨_, by rw [World.sendAll_submitted, he, List.append_assoc], ?_⟩
    rw [List.flatMap_append]
    exact hsub.append (by simpa using hs)

theorem sendAll_invariant {I : World β → Prop} (h : ∀ w o, I w → I (w.submit B o).2) (hw : I w)
    (orders : List Order) : I (w.sendAll B orders) := by
  induction orders generalizing w with
  | nil => exact hw
  | cons o orders ih => exact ih (h w o hw)

/-- What each single step preserves. -/
theorem invariant {I : World β → Prop} (h : Leads B quote w rs w') (hw : I w)
    (hstore : ∀ w s, I w → I { w with store := s })
    (hcancel : ∀ w id, I w → I { w with broker := B.cancelOrder w.broker id })
    (hquote : ∀ w symbol price, I w → I { w with broker := quote w.broker symbol price })
    (hsubmit : ∀ w o, I w → I (w.submit B o).2) : I w' := by
  induction h with
  | refl => exact hw
  | store s _ ih => exact hstore _ s ih
  | cancel id _ ih => exact hcancel _ id ih
  | market symbol price _ ih => exact hquote _ symbol price ih
  | send r _ _ ih => exact sendAll_invariant hsubmit ih _

theorem cancelAll (h : Leads B quote w rs w') (orders : List Order) :
    Leads B quote w rs
      { w' with broker := orders.foldl (fun b o ↦ B.cancelOrder b o.clientOrderId) w'.broker } := by
  induction orders generalizing w' with
  | nil => exact h
  | cons o orders ih => exact ih (.cancel o.clientOrderId h)

end Leads

/-! ### What the two calls send -/

variable {D : Digests} {B : Broker β} {quote : β → String → ℚ → β}

theorem sentOrders_sublist (c : EngineCall β) :
    (sentOrders B c.engine c.world.broker c.target c.prices c.asOf).Sublist
      ((Request.rebalance c).built B) := by
  unfold sentOrders Request.built
  dsimp only
  split
  · exact List.nil_sublist _
  · exact (List.take_sublist _ _).trans (List.filter_sublist.map _)

theorem leads_rebalance (c : EngineCall β) : Leads B quote c.world [.rebalance c]
    (rebalance D B c.engine c.world c.target c.prices c.asOf).world := by
  obtain ⟨store, h⟩ :=
    rebalance_world (D := D) (B := B) c.engine c.world c.target c.prices c.asOf
  rw [h]
  exact .store store (.send _ (sentOrders_sublist c) (.refl c.world))

theorem leads_haltAndFlatten (e : ExecutionEngine) (w : World β) (asOf : Datetime) :
    Leads B quote w [.flatten w asOf] (haltAndFlatten D B e w asOf).world := by
  obtain ⟨store, h⟩ := flattenAll_world (D := D) (B := B)
    { e with killSwitch := e.killSwitch.engage "manual_kill" } asOf (B.getPositions w.broker) w []
  have hw : (haltAndFlatten D B e w asOf).world = _ := h
  rw [hw]
  exact .store store (.send (.flatten w asOf) (List.Sublist.refl _) (.refl w))

/-! ### A paper broker that is watched -/

/-- A paper broker, with the orders that it has answered with the stored result of an earlier one. -/
structure WatchedBroker where
  paper : PaperBroker
  replayed : List Order := []

namespace WatchedBroker

def setPrice (b : WatchedBroker) (symbol : String) (price : ℚ) : WatchedBroker :=
  { b with paper := b.paper.setPrice symbol price }

def submitOrder (b : WatchedBroker) (order : Order) : Except String Order × WatchedBroker :=
  let (answer, paper) := b.paper.submitOrder order
  (answer,
    { paper := paper
      replayed := if (b.paper.orders.find? order.clientOrderId).isSome then b.replayed ++ [order]
        else b.replayed })

end WatchedBroker

def watchedBroker : Broker WatchedBroker where
  getAccount b := b.paper.getAccount
  getPositions b := b.paper.positions.toList
  getOpenOrders b := b.paper.getOpenOrders
  submitOrder := WatchedBroker.submitOrder
  cancelOrder b id := { b with paper := b.paper.cancelOrder id }

theorem PaperBroker.orders_submitOrder (b : PaperBroker) (o : Order) :
    (b.submitOrder o).2.orders = b.orders ∨ ∃ o', (b.submitOrder o).2.orders = b.orders.insert o' ∧
      o'.clientOrderId = o.clientOrderId := by
  unfold submitOrder
  split
  · exact .inl rfl
  · split
    · exact .inr ⟨_, rfl, rfl⟩
    · split
      · split
        · exact .inr ⟨_, rfl, rfl⟩
        · exact .inr ⟨_, rfl, rfl⟩
      · exact .inr ⟨_, rfl, rfl⟩

theorem PaperBroker.mem_keys_submitOrder {b : PaperBroker} {o : Order} {id : String}
    (h : id ∈ (b.submitOrder o).2.orders.keys) : id ∈ b.orders.keys ∨ id = o.clientOrderId := by
  rcases b.orders_submitOrder o with he | ⟨o', he, ho⟩
  · exact .inl (he ▸ h)
  · rw [he, Keyed.mem_keys_insert, ho] at h
    exact h.symm

theorem PaperBroker.mem_keys_cancelOrder {b : PaperBroker} {id id' : String}
    (h : id' ∈ (b.cancelOrder id).orders.keys) : id' ∈ b.orders.keys := by
  unfold cancelOrder at h
  split at h
  · exact h
  · next o ho =>
    split at h
    · rcases Keyed.mem_keys_insert.mp h with rfl | h
      · obtain ⟨hm, -⟩ := Keyed.mem_of_find? ho
        exact Keyed.mem_keys.mpr ⟨o, hm, rfl⟩
      · exact h
    · exact h

/-- The broker stores results of orders that it has been handed, and has replayed none unless an id
came twice. -/
structure Stores (w : World WatchedBroker) : Prop where
  handed : ∀ id ∈ w.broker.paper.orders.keys, id ∈ w.submitted.map Order.clientOrderId
  replayed : (w.submitted.map Order.clientOrderId).Nodup → w.broker.replayed = []

theorem Stores.submit {w : World WatchedBroker} (h : Stores w) (o : Order) :
    Stores (w.submit watchedBroker o).2 := by
  constructor
  · intro id hid
    rw [World.submit_submitted, List.map_append, List.mem_append]
    exact (PaperBroker.mem_keys_submitOrder hid).imp (h.handed id) fun he ↦ List.mem_singleton.mpr he
  · intro hn
    rw [World.submit_submitted, List.map_append, List.nodup_append] at hn
    have hnew : (w.broker.paper.orders.find? o.clientOrderId).isSome = false := by
      rw [Option.isSome_eq_false_iff, Option.isNone_iff_eq_none, Keyed.find?_eq_none]
      intro hm
      exact hn.2.2 _ (h.handed _ hm) _ (by simp) rfl
    have hreplayed : (w.submit watchedBroker o).2.broker.replayed =
        if (w.broker.paper.orders.find? o.clientOrderId).isSome then w.broker.replayed ++ [o]
        else w.broker.replayed := rfl
    rw [hreplayed, hnew]
    exact h.replayed hn.1

theorem Leads.stores {w w' : World WatchedBroker} {rs : List (Request WatchedBroker)}
    (h : Leads watchedBroker WatchedBroker.setPrice w rs w') (hw : Stores w) : Stores w' := by
  refine h.invariant hw (fun w s hw ↦ ⟨hw.handed, hw.replayed⟩) (fun w id hw ↦ ?_)
    (fun w symbol price hw ↦ ⟨hw.handed, hw.replayed⟩) fun w o hw ↦ hw.submit o
  exact ⟨fun id' hid ↦ hw.handed id' (PaperBroker.mem_keys_cancelOrder hid), hw.replayed⟩

theorem reached_sublist (B : Broker β) (asOf : Datetime) (positions : List Position) (b : β) :
    (reached B asOf positions b).Sublist positions := by
  induction positions generalizing b with
  | nil => exact .slnil
  | cons pos rest ih =>
    rw [reached]
    split
    · exact (List.nil_sublist rest).cons_cons pos
    · exact (ih _).cons_cons pos

theorem nodup_names_watched (r : Request WatchedBroker) : (r.names watchedBroker).Nodup := by
  cases r with
  | rebalance c => exact Request.nodup_names_rebalance c
  | flatten w asOf =>
    exact w.broker.paper.positions.nodup.sublist ((reached_sublist _ _ _ _).map _)

end MarketTrader.Execution
