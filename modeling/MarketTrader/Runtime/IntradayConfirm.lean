import MarketTrader.Core.Schema
import MarketTrader.Library.Run
import Mathlib.Algebra.Order.Field.Rat
import Mathlib.Data.List.DropRight
import Mathlib.Tactic.Linarith

namespace MarketTrader.Runtime

open Library MarketTrader.Core

structure ConfirmationConfig where
  persistence : ℤ := 3
  sigmaMult : ℚ := 2
  volumeMult : ℚ := 3 / 2
  requireDailyAgreement : Bool := true
  cooldownMinutes : ℚ := 30

/-- One call of the gate. -/
structure Check where
  symbol : String
  signal : ℚ
  recentVol : ℚ
  volumeRatio : ℚ
  dailySignal : ℚ
  now : Datetime

/-- The latest directions of a name, the newest last, and when it was last acted on. -/
structure NameState where
  directions : List ℤ := []
  lastAction : Option Datetime := none

namespace NameState

def push (st : NameState) (maxlen : ℕ) (direction : ℤ) : NameState :=
  { st with directions := (st.directions ++ [direction]).rtake maxlen }

def note (st : NameState) (now : Datetime) (result : ℤ) : NameState :=
  if result = 0 then st else { st with lastAction := some now }

@[simp] theorem directions_note (st : NameState) (now : Datetime) (result : ℤ) :
    (st.note now result).directions = st.directions := by
  unfold note
  split <;> rfl

end NameState

namespace ConfirmationConfig

variable (cfg : ConfirmationConfig)

def maxlen : ℕ := (max 1 cfg.persistence).toNat

def threshold (c : Check) : ℚ := cfg.sigmaMult * max c.recentVol 0

def direction (c : Check) : ℤ :=
  if 0 < cfg.threshold c ∧ cfg.threshold c ≤ |c.signal| then if 0 < c.signal then 1 else -1
  else 0

def cooling (lastAction : Option Datetime) (now : Datetime) : Prop :=
  ∃ t ∈ lastAction, ((now - t : Timedelta) : ℚ) / 1000000 < cfg.cooldownMinutes * 60

instance (lastAction : Option Datetime) (now : Datetime) : Decidable (cfg.cooling lastAction now) :=
  match lastAction with
  | none => isFalse (by simp [cooling])
  | some t => decidable_of_iff (((now - t : Timedelta) : ℚ) / 1000000 < cfg.cooldownMinutes * 60)
      (by simp [cooling])

/-- The confirmations after the first, with the direction of the check in the queue. -/
def answer (st : NameState) (c : Check) : ℤ :=
  if st.directions.length < cfg.persistence then 0
  else
    let proposed := st.directions.getLastD 0
    if proposed = 0 ∨ ∃ d ∈ st.directions, d ≠ proposed then 0
    else if c.volumeRatio < cfg.volumeMult then 0
    else if cfg.requireDailyAgreement ∧ c.dailySignal ≠ 0 ∧ proposed * c.dailySignal < 0 then 0
    else if cfg.cooling st.lastAction c.now then 0
    else proposed

end ConfirmationConfig

structure IntradayConfirmation where
  config : ConfirmationConfig := {}
  state : Dict String NameState := .empty

namespace IntradayConfirmation

def nameState (g : IntradayConfirmation) (symbol : String) : NameState :=
  Dict.getD g.state symbol {}

def confirm (g : IntradayConfirmation) (c : Check) : ℤ × IntradayConfirmation :=
  let st := (g.nameState c.symbol).push g.config.maxlen (g.config.direction c)
  let result := g.config.answer st c
  (result, { g with state := Dict.set g.state c.symbol (st.note c.now result) })

end IntradayConfirmation

/-- A gate, and the checks so far with what it said to each. -/
structure ConfirmLog where
  gate : IntradayConfirmation
  log : List (Check × ℤ) := []

def ConfirmLog.step (s : ConfirmLog) (c : Check) : ConfirmLog where
  gate := (s.gate.confirm c).2
  log := s.log ++ [(c, (s.gate.confirm c).1)]

def ofName (symbol : String) (log : List (Check × ℤ)) : List (Check × ℤ) :=
  log.filter (·.1.symbol = symbol)

/-! ### What a check clears -/

/-- The last `persistence` checks of the name point the way of `d`, the volume and the daily signal
bear it out, and the name was not acted on within the cooldown. -/
structure Clears (cfg : ConfirmationConfig) (before : List (Check × ℤ)) (c : Check) (d : ℤ) :
    Prop where
  persistent : ∃ older recent, (ofName c.symbol before).map Prod.fst ++ [c] = older ++ recent ∧
    recent.length = cfg.persistence ∧ ∀ x ∈ recent, 0 < x.recentVol ∧ 0 < d * x.signal ∧
      cfg.sigmaMult * x.recentVol ≤ |x.signal|
  volume : cfg.volumeMult ≤ c.volumeRatio
  agrees : cfg.requireDailyAgreement → 0 ≤ d * c.dailySignal
  cooled : ∀ p ∈ before, p.1.symbol = c.symbol → p.2 ≠ 0 →
    cfg.cooldownMinutes * 60 ≤ ((c.now - p.1.now : Timedelta) : ℚ) / 1000000

section Answer

variable {cfg : ConfirmationConfig} {st : NameState} {c : Check} {d : ℤ}

theorem direction_eq_iff (hσ : 0 < cfg.sigmaMult) (hd : d = 1 ∨ d = -1) :
    cfg.direction c = d ↔ 0 < c.recentVol ∧ 0 < d * c.signal ∧
      cfg.sigmaMult * c.recentVol ≤ |c.signal| := by
  have hd₀ : d ≠ 0 := by omega
  unfold ConfirmationConfig.direction ConfirmationConfig.threshold
  rcases le_or_gt c.recentVol 0 with hv | hv
  · rw [max_eq_right hv, mul_zero, if_neg fun h ↦ lt_irrefl _ h.1]
    constructor
    · intro h
      exact absurd h.symm hd₀
    · rintro ⟨h, -⟩
      exact absurd h (not_lt.mpr hv)
  · have hpos : 0 < cfg.sigmaMult * c.recentVol := mul_pos hσ hv
    rw [max_eq_left hv.le]
    split
    · next h =>
      have hs : c.signal ≠ 0 := by
        intro h₀
        rw [h₀, abs_zero] at h
        exact absurd (h.1.trans_le h.2) (lt_irrefl _)
      have hsign : 0 < d * c.signal ↔ (if 0 < c.signal then (1 : ℤ) else -1) = d := by
        rcases hd with rfl | rfl <;> rcases lt_or_gt_of_ne hs with hlt | hlt <;>
          simp [hlt, hlt.not_gt]
      rw [← hsign]
      constructor
      · intro hd
        exact ⟨hv, hd, h.2⟩
      · exact fun hd ↦ hd.2.1
    · next h =>
      constructor
      · intro hd
        exact absurd hd.symm hd₀
      · rintro ⟨-, -, hle⟩
        exact absurd ⟨hpos, hle⟩ h

theorem answer_eq_iff (hd : d ≠ 0) : cfg.answer st c = d ↔
    cfg.persistence ≤ st.directions.length ∧ st.directions.getLastD 0 = d ∧
      (∀ x ∈ st.directions, x = d) ∧ cfg.volumeMult ≤ c.volumeRatio ∧
      (cfg.requireDailyAgreement → 0 ≤ d * c.dailySignal) ∧ ¬cfg.cooling st.lastAction c.now := by
  unfold ConfirmationConfig.answer
  dsimp only
  constructor
  · intro h
    split at h
    · exact absurd h.symm hd
    · next hlen =>
      split at h
      · exact absurd h.symm hd
      · next hsame =>
        split at h
        · exact absurd h.symm hd
        · next hvol =>
          split at h
          · exact absurd h.symm hd
          · next hagree =>
            split at h
            · exact absurd h.symm hd
            · next hcool =>
              rw [h] at hsame hagree
              refine ⟨not_lt.mp hlen, h, fun x hx ↦ ?_, not_lt.mp hvol, fun hreq ↦ ?_, hcool⟩
              · by_contra hne
                exact hsame (.inr ⟨x, hx, hne⟩)
              · by_contra hneg
                refine hagree ⟨hreq, fun h₀ ↦ hneg ?_, not_le.mp hneg⟩
                rw [h₀, mul_zero]
  · rintro ⟨hlen, hlast, hsame, hvol, hagree, hcool⟩
    rw [if_neg (not_lt.mpr hlen), hlast, if_neg, if_neg (not_lt.mpr hvol), if_neg,
      if_neg hcool]
    · rintro ⟨hreq, -, hneg⟩
      exact absurd hneg (not_lt.mpr (hagree hreq))
    · rintro (h₀ | ⟨x, hx, hne⟩)
      · exact hd h₀
      · exact hne (hsame x hx)

theorem answer_mem (cfg : ConfirmationConfig) (st : NameState) (c : Check) :
    cfg.answer st c = 0 ∨ cfg.answer st c ∈ st.directions := by
  by_cases hd : cfg.answer st c = 0
  · exact .inl hd
  · right
    obtain ⟨-, hlast, -⟩ := (answer_eq_iff hd).mp rfl
    rcases st.directions.eq_nil_or_concat with hnil | ⟨l, a, hl⟩
    · rw [hnil] at hlast
      exact absurd hlast.symm hd
    · rw [hl, List.concat_eq_append, List.getLastD_concat] at hlast
      rw [← hlast, hl]
      simp

end Answer

/-! ### What the gate remembers -/

/-- When the name was last acted on. -/
def lastActed (symbol : String) (log : List (Check × ℤ)) : Option Datetime :=
  ((ofName symbol log).filter (·.2 ≠ 0)).getLast?.map (·.1.now)

structure Remembers (cfg : ConfirmationConfig) (s : ConfirmLog) : Prop where
  config : s.gate.config = cfg
  directions : ∀ symbol, (s.gate.nameState symbol).directions =
    ((ofName symbol s.log).map fun p ↦ cfg.direction p.1).rtake cfg.maxlen
  lastAction : ∀ symbol, (s.gate.nameState symbol).lastAction = lastActed symbol s.log

section Step

variable {cfg : ConfirmationConfig} {s : ConfirmLog} {c : Check}

theorem rtake_append_rtake {α : Type} (l : List α) (a : α) (n : ℕ) :
    (l.rtake (n + 1) ++ [a]).rtake (n + 1) = (l ++ [a]).rtake (n + 1) := by
  rw [List.rtake_concat_succ, List.rtake_concat_succ]
  simp [List.rtake_eq_reverse_take_reverse, List.take_take]

theorem ofName_concat (symbol : String) (log : List (Check × ℤ)) (p : Check × ℤ) :
    ofName symbol (log ++ [p]) =
      if p.1.symbol = symbol then ofName symbol log ++ [p] else ofName symbol log := by
  unfold ofName
  rw [List.filter_append]
  split
  · next h => simp [h]
  · next h => simp [h]

theorem Remembers.init (cfg : ConfirmationConfig) :
    Remembers cfg ⟨{ config := cfg }, []⟩ where
  config := rfl
  directions _ := (List.rtake_nil _).symm
  lastAction _ := rfl

theorem exists_maxlen (cfg : ConfirmationConfig) : ∃ n, cfg.maxlen = n + 1 :=
  ⟨cfg.maxlen - 1, by unfold ConfirmationConfig.maxlen; omega⟩

/-- The directions of the name up to this check. -/
def queued (cfg : ConfirmationConfig) (log : List (Check × ℤ)) (c : Check) : List ℤ :=
  (((ofName c.symbol log).map Prod.fst ++ [c]).map cfg.direction).rtake cfg.maxlen

theorem Remembers.confirm (h : Remembers cfg s) (c : Check) : (s.gate.confirm c).1 =
    cfg.answer ⟨queued cfg s.log c, lastActed c.symbol s.log⟩ c := by
  obtain ⟨n, hn⟩ := exists_maxlen cfg
  unfold IntradayConfirmation.confirm queued NameState.push
  dsimp only
  rw [h.config, h.directions, h.lastAction, hn, rtake_append_rtake, List.map_append,
    List.map_map]
  rfl

theorem nameState_confirm (g : IntradayConfirmation) (symbol : String) :
    (g.confirm c).2.nameState symbol = if c.symbol = symbol then
      ((g.nameState symbol).push g.config.maxlen (g.config.direction c)).note c.now
        (g.confirm c).1
    else g.nameState symbol := by
  unfold IntradayConfirmation.confirm
  simp only [IntradayConfirmation.nameState, Dict.getD, Dict.get?_set]
  split
  · next h =>
    subst h
    rfl
  · rfl

theorem Remembers.step (h : Remembers cfg s) (c : Check) : Remembers cfg (s.step c) where
  config := h.config
  directions symbol := by
    obtain ⟨n, hn⟩ := exists_maxlen cfg
    unfold ConfirmLog.step
    dsimp only
    rw [nameState_confirm, ofName_concat]
    dsimp only
    split
    · rw [NameState.directions_note, NameState.push, h.config, h.directions, hn,
        rtake_append_rtake, List.map_append]
      rfl
    · exact h.directions symbol
  lastAction symbol := by
    unfold ConfirmLog.step lastActed
    dsimp only
    rw [nameState_confirm, ofName_concat]
    dsimp only
    split
    · unfold NameState.note
      rw [List.filter_append]
      split
      · next hz =>
        rw [List.filter_cons_of_neg (by simpa using hz), List.filter_nil, List.append_nil]
        exact h.lastAction symbol
      · next hz =>
        rw [List.filter_cons_of_pos (by simpa using hz), List.filter_nil,
          List.getLast?_concat]
        rfl
    · exact h.lastAction symbol

theorem Remembers.run (h : Remembers cfg s) (checks : List Check) :
    Remembers cfg (run ConfirmLog.step s checks) :=
  run_invariant (fun _ c h _ ↦ h.step c) h
    (Along.of_forall (P := fun _ _ ↦ True) (fun _ _ _ ↦ trivial) s)

end Step

/-! ### What it answers -/

section Spec

variable {cfg : ConfirmationConfig} {s : ConfirmLog} {c : Check} {d : ℤ}

theorem getLastD_mem {α : Type} {l : List α} (h : l ≠ []) (a : α) : l.getLastD a ∈ l := by
  rcases l.eq_nil_or_concat with hnil | ⟨l, b, rfl⟩
  · exact absurd hnil h
  · rw [List.concat_eq_append, List.getLastD_concat]
    simp

/-- The queue is full of one direction exactly when the last checks all point its way. -/
theorem queued_eq_iff (hp : 1 ≤ cfg.persistence) (hσ : 0 < cfg.sigmaMult) (hd : d = 1 ∨ d = -1)
    (log : List (Check × ℤ)) (c : Check) :
    (cfg.persistence ≤ (queued cfg log c).length ∧ (queued cfg log c).getLastD 0 = d ∧
      ∀ x ∈ queued cfg log c, x = d) ↔
    ∃ older recent, (ofName c.symbol log).map Prod.fst ++ [c] = older ++ recent ∧
      recent.length = cfg.persistence ∧ ∀ x ∈ recent, 0 < x.recentVol ∧ 0 < d * x.signal ∧
        cfg.sigmaMult * x.recentVol ≤ |x.signal| := by
  have hmax : (cfg.maxlen : ℤ) = cfg.persistence := by
    unfold ConfirmationConfig.maxlen
    omega
  unfold queued
  generalize (ofName c.symbol log).map Prod.fst ++ [c] = l
  constructor
  · rintro ⟨hlen, -, hall⟩
    simp only [List.rtake, List.length_drop, List.length_map] at hlen
    refine ⟨l.take (l.length - cfg.maxlen), l.drop (l.length - cfg.maxlen),
      (List.take_append_drop _ _).symm, ?_, fun x hx ↦ ?_⟩
    · rw [List.length_drop]
      omega
    · rw [← direction_eq_iff hσ hd]
      apply hall
      rw [List.rtake, ← List.map_drop, List.length_map]
      exact List.mem_map_of_mem hx
  · rintro ⟨older, recent, rfl, hlen, hall⟩
    have hrecent : ((older ++ recent).map cfg.direction).rtake cfg.maxlen =
        recent.map cfg.direction := by
      rw [List.rtake, List.map_append]
      apply List.drop_left'
      rw [List.length_append, List.length_map, List.length_map]
      omega
    have hsame : ∀ x ∈ recent.map cfg.direction, x = d := by
      intro x hx
      obtain ⟨y, hy, rfl⟩ := List.mem_map.mp hx
      exact (direction_eq_iff hσ hd).mpr (hall y hy)
    have hne : recent.map cfg.direction ≠ [] := by
      intro hnil
      rw [List.map_eq_nil_iff.mp hnil, List.length_nil] at hlen
      omega
    rw [hrecent, List.length_map]
    exact ⟨hlen.ge, hsame _ (getLastD_mem hne 0), hsame⟩

theorem not_cooling_iff (hs : (s.log.map Prod.fst).Pairwise fun a b ↦
      a.symbol = b.symbol → a.now ≤ b.now) :
    ¬cfg.cooling (lastActed c.symbol s.log) c.now ↔
      ∀ p ∈ s.log, p.1.symbol = c.symbol → p.2 ≠ 0 →
        cfg.cooldownMinutes * 60 ≤ ((c.now - p.1.now : Timedelta) : ℚ) / 1000000 := by
  have hmem : ∀ p, p ∈ (ofName c.symbol s.log).filter (·.2 ≠ 0) ↔
      p ∈ s.log ∧ p.1.symbol = c.symbol ∧ p.2 ≠ 0 := by
    intro p
    rw [ofName, List.mem_filter, List.mem_filter, and_assoc, decide_eq_true_eq, decide_eq_true_eq]
  have hsorted : ((ofName c.symbol s.log).filter (·.2 ≠ 0)).Pairwise fun p q ↦
      p.1.symbol = q.1.symbol → p.1.now ≤ q.1.now :=
    ((List.pairwise_map.mp hs).filter _).filter _
  unfold ConfirmationConfig.cooling lastActed
  rcases ((ofName c.symbol s.log).filter (·.2 ≠ 0)).eq_nil_or_concat with hnil | ⟨l, q, hl⟩
  · rw [hnil] at hmem ⊢
    simp only [List.getLast?_nil, Option.map_none, Option.mem_def, reduceCtorEq, false_and,
      exists_false, not_false_eq_true, true_iff]
    intro p hp hsym hact
    cases (hmem p).mpr ⟨hp, hsym, hact⟩
  · rw [hl, List.concat_eq_append] at hmem hsorted
    rw [hl, List.concat_eq_append, List.getLast?_concat, Option.map_some]
    simp only [Option.mem_def, Option.some_inj, exists_eq_left', not_lt]
    have hq := (hmem q).mp (by simp)
    constructor
    · intro hcool p hp hsym hact
      have hle : p.1.now ≤ q.1.now := by
        rcases List.mem_append.mp ((hmem p).mpr ⟨hp, hsym, hact⟩) with hin | hin
        · exact (List.pairwise_append.mp hsorted).2.2 p hin q (by simp) (hsym.trans hq.2.1.symm)
        · rw [List.mem_singleton.mp hin]
      have hsub : ((c.now - q.1.now : Timedelta) : ℚ) ≤ ((c.now - p.1.now : Timedelta) : ℚ) := by
        exact_mod_cast Int.sub_le_sub_left hle c.now
      linarith
    · intro hall
      exact hall q hq.1 hq.2.1 hq.2.2

theorem Remembers.confirm_eq_iff (h : Remembers cfg s) (hp : 1 ≤ cfg.persistence)
    (hσ : 0 < cfg.sigmaMult) (hs : (s.log.map Prod.fst).Pairwise fun a b ↦
      a.symbol = b.symbol → a.now ≤ b.now) (hd : d = 1 ∨ d = -1) :
    (s.gate.confirm c).1 = d ↔ Clears cfg s.log c d := by
  rw [h.confirm, answer_eq_iff (by omega), ← and_assoc, ← and_assoc, and_assoc (b := _ = d),
    queued_eq_iff hp hσ hd, not_cooling_iff hs]
  constructor
  · rintro ⟨hrecent, hvol, hagree, hcool⟩
    exact ⟨hrecent, hvol, hagree, hcool⟩
  · intro hc
    exact ⟨hc.persistent, hc.volume, hc.agrees, hc.cooled⟩

theorem Remembers.confirm_cases (h : Remembers cfg s) (c : Check) :
    (s.gate.confirm c).1 = 0 ∨ (s.gate.confirm c).1 = 1 ∨ (s.gate.confirm c).1 = -1 := by
  rw [h.confirm]
  rcases answer_mem cfg ⟨queued cfg s.log c, lastActed c.symbol s.log⟩ c with hz | hm
  · exact .inl hz
  · have hm := List.mem_of_mem_drop hm
    obtain ⟨x, -, hx⟩ := List.mem_map.mp hm
    rw [← hx]
    unfold ConfirmationConfig.direction
    split
    · split <;> simp
    · simp

end Spec

/-! ### Runs of the gate -/

section Run

variable {cfg : ConfirmationConfig}

theorem map_log_run (s : ConfirmLog) (checks : List Check) :
    (run ConfirmLog.step s checks).log.map Prod.fst = s.log.map Prod.fst ++ checks := by
  induction checks generalizing s with
  | nil => simp
  | cons c checks ih =>
    rw [run_cons, ih]
    simp [ConfirmLog.step]

theorem log_prefix_run (s : ConfirmLog) (checks : List Check) :
    s.log <+: (run ConfirmLog.step s checks).log := by
  induction checks generalizing s with
  | nil => exact List.prefix_rfl
  | cons c checks ih => exact (List.prefix_append _ _).trans (ih (s.step c))

/-- Each entry of the log was made in the state that the entries before it have led to. -/
theorem eq_confirm_of_log {s : ConfirmLog} (hs : s.log = []) {checks : List Check}
    {before after : List (Check × ℤ)} {c : Check} {r : ℤ}
    (h : (run ConfirmLog.step s checks).log = before ++ (c, r) :: after) :
    checks = before.map Prod.fst ++ c :: after.map Prod.fst ∧
      (run ConfirmLog.step s (before.map Prod.fst)).log = before ∧
      r = ((run ConfirmLog.step s (before.map Prod.fst)).gate.confirm c).1 := by
  have hchecks : checks = before.map Prod.fst ++ c :: after.map Prod.fst := by
    have hm := map_log_run s checks
    rw [h, hs, List.map_append, List.map_cons, List.map_nil, List.nil_append] at hm
    exact hm.symm
  have hprefix := log_prefix_run ((run ConfirmLog.step s (before.map Prod.fst)).step c)
    (after.map Prod.fst)
  rw [← run_cons, ← run_append, ← hchecks, h] at hprefix
  have hlen : (run ConfirmLog.step s (before.map Prod.fst)).log.length = before.length := by
    have hm := congrArg List.length (map_log_run s (before.map Prod.fst))
    simpa [hs] using hm
  obtain ⟨rest, hrest⟩ := hprefix
  simp only [ConfirmLog.step, List.append_assoc, List.singleton_append] at hrest
  obtain ⟨hlog, hrest⟩ := List.append_inj hrest hlen
  rw [List.cons.injEq, Prod.mk.injEq] at hrest
  exact ⟨hchecks, hlog, hrest.1.2.symm⟩

/-- A name is answered as if it were alone. -/
theorem ofName_run (symbol : String) (checks : List Check) (s s' : ConfirmLog)
    (hc : s'.gate.config = s.gate.config)
    (hn : s'.gate.nameState symbol = s.gate.nameState symbol)
    (hl : s'.log = ofName symbol s.log) :
    (run ConfirmLog.step s' (checks.filter (·.symbol = symbol))).log =
      ofName symbol (run ConfirmLog.step s checks).log := by
  induction checks generalizing s s' with
  | nil => exact hl
  | cons c checks ih =>
    by_cases h : c.symbol = symbol
    · have hr : (s'.gate.confirm c).1 = (s.gate.confirm c).1 := by
        unfold IntradayConfirmation.confirm
        dsimp only
        rw [h, hc, hn]
      rw [List.filter_cons_of_pos (by simpa using h), run_cons, run_cons]
      refine ih (s.step c) (s'.step c) hc ?_ ?_
      · simp only [ConfirmLog.step, nameState_confirm, h, if_true]
        rw [hc, hn, hr]
      · simp only [ConfirmLog.step]
        rw [ofName_concat, if_pos h, hl, hr]
    · rw [List.filter_cons_of_neg (by simpa using h), run_cons]
      refine ih (s.step c) s' hc ?_ ?_
      · simp only [ConfirmLog.step, nameState_confirm, h, if_false]
        exact hn
      · simp only [ConfirmLog.step]
        rw [ofName_concat, if_neg h, hl]

end Run

/-- The gate acts on a name exactly when a check of it clears every confirmation and the cooldown,
whatever the checks of other names. -/
theorem intraday_gate_acts_iff (cfg : ConfirmationConfig) (hp : 1 ≤ cfg.persistence)
    (hσ : 0 < cfg.sigmaMult) (checks : List Check)
    (ht : checks.Pairwise fun a b ↦ a.symbol = b.symbol → a.now ≤ b.now) :
    let log := fun checks ↦ (run ConfirmLog.step ⟨{ config := cfg }, []⟩ checks).log
    (log checks).map Prod.fst = checks ∧
    (∀ before c r after, log checks = before ++ (c, r) :: after →
      (r = 0 ∨ r = 1 ∨ r = -1) ∧ (∀ d, d = 1 ∨ d = -1 → (r = d ↔ Clears cfg before c d)) ∧
      (r ≠ 0 → ∀ p ∈ before, p.1.symbol = c.symbol → p.2 ≠ 0 →
        cfg.cooldownMinutes * 60 ≤ ((c.now - p.1.now : Timedelta) : ℚ) / 1000000)) ∧
    ∀ symbol, ofName symbol (log checks) = log (checks.filter (·.symbol = symbol)) := by
  intro log
  refine ⟨map_log_run _ checks, fun before c r after h ↦ ?_, fun symbol ↦
    (ofName_run symbol checks _ _ rfl rfl rfl).symm⟩
  obtain ⟨hchecks, hlog, hr⟩ := eq_confirm_of_log rfl h
  have hrem := (Remembers.init cfg).run (before.map Prod.fst)
  have hsorted : (before.map Prod.fst).Pairwise fun a b : Check ↦
      a.symbol = b.symbol → a.now ≤ b.now := by
    rw [hchecks] at ht
    exact (List.pairwise_append.mp ht).1
  rw [← hlog] at hsorted
  have hiff : ∀ d, d = 1 ∨ d = -1 → (r = d ↔ Clears cfg before c d) := by
    intro d hd
    rw [hr, hrem.confirm_eq_iff hp hσ hsorted hd, hlog]
  have hcases : r = 0 ∨ r = 1 ∨ r = -1 := by
    rw [hr]
    exact hrem.confirm_cases c
  refine ⟨hcases, hiff, fun hne ↦ ?_⟩
  rcases hcases with hz | hd
  · exact absurd hz hne
  · exact ((hiff r hd).mp rfl).cooled

/-- A rise of five standard errors on twice the volume. -/
def riseOf (symbol : String) (minutes : ℤ) : Check where
  symbol := symbol
  signal := 1 / 20
  recentVol := 1 / 100
  volumeRatio := 2
  dailySignal := 1
  now := Timedelta.ofMinutes minutes

/-- The third check acts, whatever the other name does, and the next one is too soon. -/
theorem intraday_gate_acts_iff_rise :
    let checks := [riseOf "A" 0, riseOf "B" 0, riseOf "A" 5, riseOf "A" 10, riseOf "A" 15]
    let log := (run ConfirmLog.step ⟨{ config := {} }, []⟩ checks).log
    log.map Prod.snd = [0, 0, 0, 1, 0] ∧
    ofName "A" log = (run ConfirmLog.step ⟨{ config := {} }, []⟩
      (checks.filter (·.symbol = "A"))).log := by
  intro checks log
  refine ⟨by decide +kernel, ?_⟩
  exact (intraday_gate_acts_iff {} (by decide) (by decide +kernel) checks
    (by decide +kernel)).2.2 "A"

end MarketTrader.Runtime
