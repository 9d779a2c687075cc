import Lorica.Impl.Stsh.Exec

/-!
# Pipelines of sh: `main.c`

The parent's side of `run_pipeline` in the older of the two shells.
-/

namespace Lorica.Impl.Shell

open Lorica.Impl.Stsh

/-- The parent's side of `run_pipeline`, for a pipeline of at least one command. Where a child cannot be forked,
the pipes from the one behind it on are closed. -/
def runPipeline (fails : Fails) (n : Nat) (p : Parent) : Parent :=
  let r := p.startAll fails (fun p => (p.closePipes (p.pipes.drop p.children)).waitAll) n
  if r.1 then (r.2.closePipes r.2.pipes).waitAll else r.2

end Lorica.Impl.Shell
