import Arcux.Percolator.Store
import Mathlib.Data.List.Basic

namespace Arcux.Percolator

variable {κ τ ν : Type}

/-- What a replicated log asks of the store: a finished single-key transaction, or a step of a two-phase one. -/
inductive Command (κ τ ν : Type) where
  | autocommit (key : κ) (value : ν) (start commitTs : τ)
  | prewrite (writes : List (κ × ν)) (primary : κ) (start ttl : τ)
  | commit (primary : κ) (keys : List κ) (start commitTs : τ)
  | resolve (keys : List κ) (start : τ) (commitTs : Option τ)

namespace Store

variable [DecidableEq κ] [LinearOrder τ]

def resolveKey (s : τ) (c : Option τ) (m : Store κ τ ν) (k : κ) : Store κ τ ν :=
  if m.owner k = some s then
    match c with
    | some c => m.commitKey k s c
    | none => m.rollBack k s
  else m

open Classical in
noncomputable def acquire (p : κ) (s ttl : τ) :
    Store κ τ ν → List (κ × ν) → List κ → Store κ τ ν × List κ × Bool
  | m, [], acquired => (m, acquired, true)
  | m, (k, v) :: rest, acquired =>
    if m.Clear k s then acquire p s ttl (m.prewrite k v ⟨p, s, ttl⟩) rest (acquired ++ [k])
    else (m, acquired, false)

noncomputable def prewriteAll (m : Store κ τ ν) (writes : List (κ × ν)) (p : κ) (s ttl : τ) :
    Store κ τ ν × Bool :=
  let locked := acquire p s ttl m writes []
  if locked.2.2 then (locked.1, true) else (locked.2.1.foldl (resolveKey s none) locked.1, false)

def commitAll (m : Store κ τ ν) (p : κ) (keys : List κ) (s c : τ) : Store κ τ ν :=
  (keys.filter (· ≠ p)).foldl (resolveKey s (some c)) (m.commitKey p s c)

noncomputable def apply (m : Store κ τ ν) : Command κ τ ν → Store κ τ ν × Bool
  | .autocommit k v s c => (m.putCommitted k v s c, true)
  | .prewrite writes p s ttl => m.prewriteAll writes p s ttl
  | .commit p keys s c => (m.commitAll p keys s c, true)
  | .resolve keys s c => (keys.foldl (resolveKey s c) m, true)

end Store

end Arcux.Percolator
