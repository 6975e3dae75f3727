import ExactFormula.Formula.Basic

/-!
# The literal pool

The pool remembers, for each value, the literal that was last made for it.  It
keeps no literal alive: which literals are still in use is decided from
outside.  The entry of a literal that is no longer in use stays until the pool
is swept, and is replaced when its value is asked for again.
-/

namespace ExactFormula

/-- A value and the literal that was made for it. -/
structure PoolEntry where
  /-- The value. -/
  value : Rat
  /-- The identity of the literal. -/
  id : NodeId
  deriving DecidableEq, Repr

/-- The literals that have been made, at most one for each value. -/
structure Pool where
  /-- The entries, in the order in which their values were first asked for. -/
  entries : List PoolEntry := []
  deriving DecidableEq, Repr

namespace Pool

/-- The number of entries, with those of literals that are no longer in use. -/
def size (pool : Pool) : Nat :=
  pool.entries.length

/-- The entry of a value. -/
def entry? (pool : Pool) (value : Rat) : Option PoolEntry :=
  pool.entries.find? (·.value = value)

/-- The literal of a value, if it is still in use. -/
def lookup?
    (pool : Pool)
    (inUse : NodeId → Bool)
    (value : Rat) :
    Option NodeId :=
  ((pool.entry? value).map (·.id)).filter inUse

/-- The entries with one of them put in place of the entry of the same value, or at the end. -/
def put (added : PoolEntry) : List PoolEntry → List PoolEntry
  | [] => [added]
  | entry :: rest => if entry.value = added.value then added :: rest else entry :: put added rest

/-- The pool with a literal made for a value. -/
def register
    (pool : Pool)
    (value : Rat)
    (id : NodeId) :
    Pool :=
  ⟨put ⟨value, id⟩ pool.entries⟩

/-- The pool without the entries of literals that are no longer in use. -/
def sweep (pool : Pool) (inUse : NodeId → Bool) : Pool :=
  ⟨pool.entries.filter fun entry => inUse entry.id⟩

end Pool
end ExactFormula
