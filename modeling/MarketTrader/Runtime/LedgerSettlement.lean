import MarketTrader.Runtime.InsiderAgreement
import MarketTrader.Runtime.InsiderExit
import MarketTrader.Runtime.NewsAgreement

namespace MarketTrader.Runtime

open Library MarketTrader.Core Storage InMemoryBitemporalStore Config Portfolio Execution

variable {β : Type} {D : Digests} {B : Broker β}

def oneShare : ShareBook where
  account := { equity := 1000, cash := 900, buyingPower := 900 }
  shares := .ofList [("A", 1)]
  nonzero := by decide

theorem ledger_clusterRows : Ledger .plain InsiderSleeve.sleeveDataset (InsiderSleeve.IsRow .plain)
    (upsertMany .empty InsiderSleeve.clusterRows) := by
  have hempty : Ledger .plain InsiderSleeve.sleeveDataset (InsiderSleeve.IsRow .plain) .empty :=
    ⟨by simp [Identified], by simp⟩
  refine hempty.insertAll fun r hr ↦ ?_
  unfold InsiderSleeve.clusterRows at hr
  obtain ⟨o, ho, rfl⟩ := List.mem_map.mp hr
  have hplain : '|' ∉ o.source.toList ∧ '|' ∉ o.dataset.toList ∧
      o.dataset ≠ InsiderSleeve.sleeveDataset := by
    simp only [List.mem_cons, List.not_mem_nil, or_false] at ho
    rcases ho with rfl | rfl | rfl | rfl <;> exact ⟨by decide, by decide, by decide⟩
  exact ⟨hasIdentity_withDeterministicId hplain.1 hplain.2.1, fun h ↦ absurd h hplain.2.2⟩

end MarketTrader.Runtime
