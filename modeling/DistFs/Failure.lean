import DistFs.Error
/-!
# Reports of failures

What a command or the start of a cluster tells its user: what went wrong, and what was being done
at the time, the widest context first.
-/

namespace DistFs

inductive Cause where
  | error (e : Error)
  | text (s : String)
deriving DecidableEq

def Cause.message : Cause → String
  | error e => e.message
  | text s => s

structure Failure where
  contexts : List String := []
  cause : Cause
deriving DecidableEq

namespace Failure

def ofError (e : Error) : Failure := ⟨[], .error e⟩

def ofText (s : String) : Failure := ⟨[], .text s⟩

def within (context : String) (f : Failure) : Failure :=
  { f with contexts := context :: f.contexts }

def chain (f : Failure) : List String := f.contexts ++ [f.cause.message]

def message (f : Failure) : String := ": ".intercalate f.chain

private def indent (first later : String) (s : String) : String :=
  first ++ ("\n" ++ later).intercalate (s.splitOn "\n")

def report (f : Failure) : String :=
  match f.chain with
  | [] => ""
  | [top] => s!"Error: {top}\n"
  | [top, cause] => s!"Error: {top}\n\nCaused by:\n" ++ indent "    " "    " cause ++ "\n"
  | top :: causes =>
    let lines := causes.zipIdx.map fun (cause, i) => indent s!"    {i}: " "       " cause
    s!"Error: {top}\n\nCaused by:\n" ++ "\n".intercalate lines ++ "\n"

end Failure

end DistFs
