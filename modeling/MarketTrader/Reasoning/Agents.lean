import MarketTrader.Reasoning.Extraction
import MarketTrader.Reasoning.Synthesis

namespace MarketTrader.Reasoning

open Library

/-- What every role is told. -/
def discipline : String :=
  "Use ONLY the context provided below. Do not use any outside knowledge, and never " ++
  "reason about what happened after the point-in-time of this context (no lookahead). " ++
  "If the context is thin, immaterial, or absent, say so via a low confidence and a " ++
  "score near 0 — do not guess. Respond with STRICT JSON only, no prose and no code " ++
  "fences: \x7b\"score\": <float -1..1>, \"confidence\": <float 0..1>, \"rationale\": <short " ++
  "string>\x7d."

def newsSystem : String :=
  "You are the NEWS analyst on an equity research panel. Judge the materiality and " ++
  "directional sentiment of the recent headlines for this single company: -1 strongly " ++
  "bearish, 0 neutral/immaterial, +1 strongly bullish. Discount routine or promotional " ++
  "items. " ++ discipline

def technicalSystem : String :=
  "You are the TECHNICAL analyst on an equity research panel. From the provided recent " ++
  "price/return summary only, judge directional momentum and trend quality: -1 strongly " ++
  "bearish (breaking down), 0 no edge/range-bound, +1 strongly bullish (trending up). Do " ++
  "not infer fundamentals. " ++ discipline

def riskSystem : String :=
  "You are the RISK analyst on an equity research panel. You do NOT pick a direction; you " ++
  "assess how DANGEROUS it would be to act on a thesis for this name right now given the " ++
  "provided context (e.g. crowding, volatility, headline/event risk, thin or conflicting " ++
  "evidence). Encode danger in the SIGN of score: score near -1 means high risk / low " ++
  "trust, score near +1 means calm / high trust, 0 means neutral. Confidence is how sure " ++
  "you are of that risk read. " ++ discipline

def AnalystRole.system : AnalystRole → String
  | news => newsSystem
  | technical => technicalSystem
  | risk => riskSystem

/-- What the panel may read about one name. -/
structure AnalystContext where
  symbol : String
  headlines : List String := []
  priceSummary : String := ""
  riskNotes : List String := []
  extra : List String := []

/-- A heading with the texts below it, if there are any. -/
def itemized (heading : String) (texts : List String) : List String :=
  if texts = [] then [] else heading :: texts.map ("- " ++ ·)

def renderContext (I : Interpreter) (ctx : AnalystContext) (role : AnalystRole) : String :=
  let headlines := if role = .technical then []
    else itemized "Recent headlines:" ((I.cleaned ctx.headlines).take 20)
  let price := if role = .news ∨ I.strip ctx.priceSummary = "" then []
    else ["Recent price/return summary: " ++ I.strip ctx.priceSummary]
  let notes := if role = .risk then itemized "Risk notes:" (I.cleaned ctx.riskNotes) else []
  "\n".intercalate (["Company ticker: " ++ ctx.symbol] ++ headlines ++ price ++ notes ++
    itemized "Additional context:" (I.cleaned ctx.extra))

/-- One view of the panel. A reply that does not read, or fails, is a neutral view. -/
def runAnalyst {σ : Type} (I : Interpreter) (P : Provider σ) (role : AnalystRole)
    (ctx : AnalystContext) (s : σ) : Except CallError AnalystView × σ :=
  let answer := P s ⟨role.system, renderContext I ctx role, 300⟩
  ((signalOf I ctx.symbol answer.1).map fun
    | none => ⟨role, 0, 0, ""⟩
    | some parsed => ⟨role, parsed.score, parsed.confidence, parsed.rationale⟩, answer.2)

end MarketTrader.Reasoning
