import MarketTrader.Storage.Bitemporal

namespace MarketTrader.Storage

open Library MarketTrader.Core

namespace InMemoryBitemporalStore

variable {s : InMemoryBitemporalStore} {d sym : String} {k : Datetime} {o r : Observation}

/-- The rows about one entity in one dataset that a reader at `k` may know. -/
def journal (s : InMemoryBitemporalStore) (d sym : String) (k : Datetime) : List Observation :=
  (visible s k).filter (fun o ↦ o.dataset = d ∧ o.entityId = sym)

theorem mem_journal : o ∈ journal s d sym k ↔
    o ∈ s.toList ∧ o.knowledgeTime ≤ k ∧ o.dataset = d ∧ o.entityId = sym := by
  simp [journal, mem_visible, and_assoc]

/-- What a read of the dataset shows of one entity comes from its journal alone. -/
theorem filter_asOf (s : InMemoryBitemporalStore) (d sym : String) (k : Datetime) :
    (asOf s k { dataset := some d }).filter (·.entityId = sym) =
      sortObservations (collapseLatestRevisions (journal s d sym k)) := by
  have hj : ((visible s k).filter (·.dataset = d)).filter (·.entityId = sym) =
      journal s d sym k := by
    simp [journal, List.filter_filter, Bool.and_comm]
  have hkey : ∀ a b : Observation, a.logicalKey = b.logicalKey →
      decide (a.entityId = sym) = decide (b.entityId = sym) := by
    intro a b h
    rw [show a.entityId = b.entityId from congrArg (·.2.2.1) h]
  rw [filter_asOf_of_key hkey s k rfl]
  simp only [Query.select, keepEqual]
  rw [hj]

theorem journal_insert_other (hr : ¬(r.dataset = d ∧ r.entityId = sym))
    (hid : ∀ o ∈ s.toList, o.observationId = r.observationId →
      ¬(o.dataset = d ∧ o.entityId = sym)) :
    journal (s.insert r) d sym k = journal s d sym k := by
  have hp : ∀ l : InMemoryBitemporalStore, journal l d sym k =
      l.toList.filter (fun o ↦ o.knowledgeTime ≤ k ∧ o.dataset = d ∧ o.entityId = sym) := by
    intro l
    simp [journal, visible, List.filter_filter, Bool.and_comm]
  obtain ⟨l₁, l₂, h₁, h₂⟩ := filter_upsert (a := r) (l := s.toList)
    (fun o ↦ decide (o.knowledgeTime ≤ k ∧ o.dataset = d ∧ o.entityId = sym))
    (fun o ho he ↦ decide_eq_false fun h ↦ hid o ho he h.2)
  rw [hp, hp, Keyed.toList_insert, h₂, h₁, if_neg (by simpa using fun _ h ↦ not_and.mp hr h),
    List.append_nil]

theorem asOf_insert_other (hr : r.dataset ≠ d)
    (hid : ∀ o ∈ s.toList, o.observationId = r.observationId → o.dataset ≠ d) :
    asOf (s.insert r) k { dataset := some d } = asOf s k { dataset := some d } := by
  have hp : ∀ l : InMemoryBitemporalStore, (visible l k).filter (·.dataset = d) =
      l.toList.filter (fun o ↦ o.knowledgeTime ≤ k ∧ o.dataset = d) := by
    intro l
    simp [visible, List.filter_filter, Bool.and_comm]
  obtain ⟨l₁, l₂, h₁, h₂⟩ := filter_upsert (a := r) (l := s.toList)
    (fun o ↦ decide (o.knowledgeTime ≤ k ∧ o.dataset = d))
    (fun o ho he ↦ decide_eq_false fun h ↦ hid o ho he h.2)
  have hn : ¬(r.knowledgeTime ≤ k ∧ r.dataset = d) := fun h ↦ hr h.2
  simp only [asOf, Query.select, keepEqual, hp, Keyed.toList_insert, h₂, h₁, hn, decide_false,
    Bool.false_eq_true, if_false, List.append_nil]

theorem journal_insert_new (hid : r.observationId ∉ s.keys) (hk : r.knowledgeTime ≤ k) :
    journal (s.insert r) r.dataset r.entityId k = journal s r.dataset r.entityId k ++ [r] := by
  have ht : upsert Observation.observationId r s.toList = s.toList ++ [r] := upsert_of_not_mem hid
  simp [journal, visible, Keyed.insert, ht, hk]

/-- The row that counts for an entity: the champion of its journal, in the order of a read. -/
def standing (better : Observation → Observation → Bool) (s : InMemoryBitemporalStore)
    (d sym : String) (k : Datetime) : Option Observation :=
  champion better (sortObservations (collapseLatestRevisions (journal s d sym k)))

theorem find?_champions_asOf (better : Observation → Observation → Bool)
    (s : InMemoryBitemporalStore) (d sym : String) (k : Datetime) :
    (champions Observation.entityId better (asOf s k { dataset := some d })).find? sym =
      standing better s d sym k := by
  rw [find?_champions, filter_asOf, standing]

theorem mem_of_standing {better : Observation → Observation → Bool}
    (h : standing better s d sym k = some o) : o ∈ journal s d sym k := by
  have hm := champion_mem h
  rw [sortObservations, mem_sortBy] at hm
  exact collapse_subset hm

theorem eventTime_le_of_standing
    (h : standing (fun prev o ↦ prev.eventTime < o.eventTime) s d sym k = some o)
    (hr : r ∈ journal s d sym k) : r.eventTime ≤ o.eventTime := by
  obtain ⟨r', hr', hkey⟩ := List.mem_map.mp (mem_keys_collapse.mpr ⟨r, hr, rfl⟩)
  rw [← show r'.eventTime = r.eventTime from congrArg (·.2.2.2.1) hkey]
  exact le_of_firstMax h (mem_sortBy.mpr hr')

theorem standing_insert_new {better : Observation → Observation → Bool}
    (hid : r.observationId ∉ s.keys) (hk : r.knowledgeTime ≤ k)
    (hj : ∀ o ∈ journal s r.dataset r.entityId k,
      sortKey o ≤ sortKey r ∧ o.logicalKey ≠ r.logicalKey) :
    standing better (s.insert r) r.dataset r.entityId k =
      challenge better (standing better s r.dataset r.entityId k) r := by
  have hc : collapseLatestRevisions (journal (s.insert r) r.dataset r.entityId k) =
      collapseLatestRevisions (journal s r.dataset r.entityId k) ++ [r] := by
    rw [journal_insert_new hid hk]
    exact toList_champions_append fun o ho ↦ (hj o ho).2
  rw [standing, hc, sortObservations, sortBy_append_singleton fun o ho ↦
    (hj o (collapse_subset ho)).1, champion_append_singleton]
  rfl

def revalue (r b : Observation) : Observation :=
  if b.observationId = r.observationId then { b with value := r.value } else b

theorem congr_revalue {γ : Type} (g : Observation → γ) (hg : ∀ b v, g { b with value := v } = g b)
    (r b : Observation) : g (revalue r b) = g b := by
  unfold revalue
  split
  · exact hg b _
  · rfl

/-- A row written again under its coordinates only gives a new value to the old one. -/
theorem standing_insert_again {better : Observation → Observation → Bool}
    (hb : ∀ a b v v', better { a with value := v } { b with value := v' } = better a b)
    {value : Dict String Value} (ho : { r with value := value } ∈ s.toList) :
    standing better (s.insert r) d sym k = (standing better s d sym k).map (revalue r) := by
  have hid : r.observationId ∈ s.toList.map Observation.observationId :=
    List.mem_map.mpr ⟨_, ho, rfl⟩
  have hs : (s.insert r).toList = s.toList.map (revalue r) := by
    rw [Keyed.toList_insert, upsert_eq_map s.nodup hid]
    refine List.map_congr_left fun b hm ↦ ?_
    unfold revalue
    split
    · next he => rw [Keyed.eq_of_mem hm ho he]
    · rfl
  have hj : journal (s.insert r) d sym k = (journal s d sym k).map (revalue r) := by
    rw [journal, journal, visible, visible, hs, List.filter_map, List.filter_map]
    simp only [Function.comp_def, congr_revalue Observation.knowledgeTime fun _ _ ↦ rfl,
      congr_revalue Observation.dataset fun _ _ ↦ rfl,
      congr_revalue Observation.entityId fun _ _ ↦ rfl]
  have hbetter : ∀ a b, better (revalue r a) (revalue r b) = better a b := by
    intro a b
    unfold revalue
    split <;> split
    · exact hb a b _ _
    · exact hb a b _ b.value
    · exact hb a b a.value _
    · rfl
  rw [standing, standing, hj, collapseLatestRevisions,
    toList_champions_map (congr_revalue Observation.logicalKey (fun _ _ ↦ rfl) r) fun a b ↦ by
      rw [congr_revalue recency fun _ _ ↦ rfl, congr_revalue recency fun _ _ ↦ rfl],
    sortObservations, sortBy_map (congr_revalue sortKey (fun _ _ ↦ rfl) r), champion_map hbetter]
  rfl

end InMemoryBitemporalStore

end MarketTrader.Storage
