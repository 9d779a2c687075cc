import Lorica.Impl.Herald.Db

/-!
# herald: installing, in `main.c`
-/

namespace Lorica.Impl.Herald

def heraldAnchors : Bytes := ascii "/etc/aegis/anchors"

/-- `transaction_begin`; from here on the database is the staged one. -/
def transactionBegin : Sys Bool := do
  if ← txnBegin then
    if ← txnStageExisting (heraldAnchors.drop 1) then do
      mkdirQuiet (heraldTxnStage ++ ascii "/etc/aegis/caps.d")
      pure true
    else do
      txnAbort
      pure false
  else do
    txnAbort
    pure false

def transactionFinish (ok : Bool) : Sys Bool := do
  if ok = true then
    if ← txnCommit then pure true
    else do
      txnAbort
      pure false
  else do
    txnAbort
    pure false

end Lorica.Impl.Herald
