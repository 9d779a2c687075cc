import Lorica.Impl.Herald.Transaction

/-!
# herald: `main`

Every invocation starts with `txn_recover`. While a kernel update is pending only
`recover complete` and `recover rollback` are accepted.

The arguments are those after the program's name. What is printed, and the system
call that makes the kernel reload its policies, change no file and are left out.
-/

namespace Lorica.Impl.Herald

def argRecover : Bytes := ascii "recover"
def argComplete : Bytes := ascii "complete"
def argRollback : Bytes := ascii "rollback"

/-- `recover complete` and `recover rollback`. -/
def recoverCommand (arg : Option Bytes) : Sys Bool :=
  if arg = some argComplete then txnFinalize
  else if arg = some argRollback then txnRollback
  else pure false

/-- `main` between recovery and its command: its exit status, or nothing if it
goes on. -/
def mainGate (args : List Bytes) (recovery : Int) : Sys (Option Nat) :=
  if recovery = 1 ∧ args.length = 2 ∧ args.head? = some argRecover then do
    let ok ← recoverCommand args[1]?
    pure (some (if ok = true then 0 else 1))
  else if recovery ≠ 0 then pure (some 1)
  else pure none

/-- `main` up to where it looks for its command. -/
def mainRecovery (args : List Bytes) : Sys (Option Nat) := do
  let recovery ← txnRecover
  mainGate args recovery

end Lorica.Impl.Herald
