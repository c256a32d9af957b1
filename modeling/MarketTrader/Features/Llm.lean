import MarketTrader.Features.Base

namespace MarketTrader.Features

open Library MarketTrader.Core Storage InMemoryBitemporalStore

def llmSignalDataset : String := "llm.signal"

def floatOr (o : Observation) (field : String) : Except FeatureError ℚ :=
  match ((o.get? field).getD (.num 0)).float? with
  | some q => .ok q
  | none => .error (.valueError field)

/-- The most recent read of each name from after the cutoff: when it became known, and its score
weighted by confidence. -/
def latestReads (cutoff : Datetime) : List Observation → Dict String (Datetime × ℚ) →
    Except FeatureError (Dict String (Datetime × ℚ))
  | [], latest => .ok latest
  | o :: rest, latest =>
    if o.knowledgeTime ≤ cutoff then latestReads cutoff rest latest
    else
      match floatOr o "score", floatOr o "confidence" with
      | .ok score, .ok confidence =>
        match Dict.get? latest o.entityId with
        | some prev =>
          latestReads cutoff rest
            (if prev.1 < o.knowledgeTime then
              Dict.set latest o.entityId (o.knowledgeTime, score * confidence)
            else latest)
        | none =>
          latestReads cutoff rest
            (Dict.set latest o.entityId (o.knowledgeTime, score * confidence))
      | .error e, _ => .error e
      | .ok _, .error e => .error e

/-- The sentiment of the last read of each name, neutral where there is none. -/
def llmNewsSentiment (windowDays : ℤ) : Feature where
  name := "llm_news_sentiment_" ++ toString windowDays ++ "d"
  compute store asOf symbols :=
    (latestReads (asOf - Timedelta.ofDays windowDays)
      (store.asOf asOf { dataset := some llmSignalDataset }) .empty).map
        (fun latest ↦ symbols.map
          (fun s ↦ (s, some (((Dict.get? latest s).map Prod.snd).getD 0))))

end MarketTrader.Features
