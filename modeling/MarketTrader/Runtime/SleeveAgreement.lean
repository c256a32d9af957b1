import MarketTrader.Execution.Records
import MarketTrader.Execution.Settlement
import MarketTrader.Runtime.SleevePass

namespace MarketTrader.Runtime

open Library MarketTrader.Core Storage InMemoryBitemporalStore Execution

variable {β : Type} {D : Digests} {B : Broker β} {e : ExecutionEngine} {w : World β}
  {p : SleevePass} {prices : Dict String ℚ} {asOf : Datetime}

/-- The names on record are the symbols that the broker holds. -/
def Agrees (B : Broker β) (b : β) (names : List String) : Prop :=
  ∀ symbol, symbol ∈ names ↔ B.Holds b symbol

/-- The end of a pass leaves the pass's own records, and the broker after its orders. -/
theorem executePass_world (he : e.audited = false) :
    (executePass D B e w p prices asOf).2 =
      { w.sendAll B (sentOrders B e w.broker p.target prices asOf) with store := p.store } := by
  unfold executePass
  dsimp only
  split
  · next h =>
    have hnil : sentOrders B e w.broker p.target prices asOf = [] := by
      refine List.eq_nil_iff_forall_not_mem.mpr fun o ho ↦ ?_
      have hk := (mem_sentOrders ho).1
      rw [Keyed.keys, h] at hk
      cases hk
    rw [hnil]
    rfl
  · obtain ⟨store, hw⟩ := rebalance_world (D := D) (B := B) e { w with store := p.store } p.target
      prices asOf
    have hs : (rebalance D B e { w with store := p.store } p.target prices asOf).world.store =
        p.store := rebalance_store_of_not_audited he
    rw [hw] at hs
    rw [hw, World.sendAll_store]
    obtain rfl : store = p.store := hs
    rfl

variable (prices asOf) in
/-- Whether the names on record after a pass are what the broker holds shows in the names that it
closes and the names that it opens alone. -/
theorem agrees_after_iff (hB : FillsOrRejects B) {names names' : List String}
    (hag : Agrees B w.broker names) {weight : ℚ}
    (htarget : p.target = passTarget weight p.closed p.opened)
    (hclosed : ∀ s ∈ p.closed, s ∈ names) (hopened : ∀ s ∈ p.opened, s ∈ names → s ∈ p.closed)
    (hframe : ∀ s, s ∉ p.closed → s ∉ p.opened → (s ∈ names' ↔ s ∈ names)) :
    let orders := sentOrders B e w.broker p.target prices asOf
    Agrees B (w.sendAll B orders).broker names' ↔
      (∀ s ∈ p.closed, B.SoldOut w.broker orders s ↔ s ∉ names') ∧
        ∀ s ∈ p.opened, s ∉ names → (B.Served w.broker orders s ↔ s ∈ names') := by
  intro orders
  have hq : ∀ o ∈ orders, 0 < o.qty := fun o ho ↦ (mem_sentOrders ho).2
  have hheld : ∀ s ∈ names, B.Holds (w.sendAll B orders).broker s ↔
      ¬B.SoldOut w.broker orders s := fun s hs ↦
    holds_sendAll_of_holds hB hq sentOrders_nodup ((hag s).mp hs)
  have hnot : ∀ s, s ∉ names → (B.Holds (w.sendAll B orders).broker s ↔
      B.Served w.broker orders s) := fun s hs ↦
    holds_sendAll_of_not_holds hB hq sentOrders_nodup fun h ↦ hs ((hag s).mpr h)
  have hkeys : ∀ s, s ∉ p.closed → s ∉ p.opened → ¬B.Served w.broker orders s := by
    intro s hc ho
    refine not_served_of_not_mem_keys fun hm ↦ ?_
    obtain ⟨v, hv⟩ := Dict.mem_keys_iff.mp hm
    rw [htarget, get?_passTarget, if_neg ho, if_neg hc] at hv
    cases hv
  constructor
  · intro h
    refine ⟨fun s hs ↦ ?_, fun s hs hn ↦ ?_⟩
    · rw [h s, hheld s (hclosed s hs), not_not]
    · rw [h s, hnot s hn]
  · rintro ⟨hc, ho⟩ s
    by_cases hn : s ∈ names
    · rw [hheld s hn]
      by_cases hs : s ∈ p.closed
      · rw [hc s hs, not_not]
      · have hso : s ∉ p.opened := fun h ↦ hs (hopened s h hn)
        refine iff_of_true ((hframe s hs hso).mpr hn) fun h ↦ ?_
        exact hkeys s hs hso (served_of_soldOut h)
    · rw [hnot s hn]
      by_cases hs : s ∈ p.opened
      · rw [ho s hs hn]
      · have hsc : s ∉ p.closed := fun h ↦ hn (hclosed s h)
        exact iff_of_false (fun h ↦ hn ((hframe s hsc hs).mp h)) (hkeys s hsc hs)

end MarketTrader.Runtime
