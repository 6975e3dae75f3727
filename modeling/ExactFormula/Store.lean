import ExactFormula.Pool
import ExactFormula.Rewrite.Rule

/-!
# The store

The store gives identities to the nodes of drafts.  Literals go through the
literal pool, so that equal literals that are in use at the same time are one
node; every other node is new.  The store also keeps a log of what happened.

A formula is in use as long as it is held or is part of one that is held.  The
functions here are told which formulas are held.
-/

namespace ExactFormula

/-- Something that the log records. -/
inductive Event
  /-- A rule changed a formula. -/
  | rewrite (rule : Rule) (before after : Formula)
  /-- Simplification came to rest after some passes; a hit is a rule that fired in a pass. -/
  | settled (passes hits : Nat)
  /-- The literal of a value was asked for, and was or was not in the pool. -/
  | literal (found : Bool) (value : Rat)
  /-- A pool was swept. -/
  | swept (evicted remaining : Nat)

/-- What is known about the nodes that have been made so far. -/
structure Store where
  /-- The next identity to be given. -/
  next : NodeId := 0
  /-- The literals that have been made. -/
  pool : Pool := {}
  /-- The events so far, the oldest first. -/
  log : List Event := []

namespace Store

/-- Add an event to the log. -/
def record (store : Store) (event : Event) : Store :=
  { store with log := store.log ++ [event] }

/-- Take the next identity. -/
def fresh (store : Store) : NodeId × Store :=
  (store.next, { store with next := store.next + 1 })

/-- Whether a node is part of one of the formulas that are held. -/
def inUse (held : List Formula) (id : NodeId) : Bool :=
  Formula.anyMentions id held

/--
The literal of a value in a pool: the one that the pool has if it is in use,
and otherwise a new one, which takes its place there.
-/
def internIn
    (pool : Pool)
    (held : List Formula)
    (value : Rat)
    (store : Store) :
    Formula × Pool × Store :=
  match pool.lookup? (inUse held) value with
  | some id => (.literal (some id) value, pool, store.record (.literal true value))
  | none =>
      let (id, store) := store.fresh
      (.literal (some id) value, pool.register value id, store.record (.literal false value))

/-- The literal of a value in the pool of the store. -/
def intern
    (held : List Formula)
    (value : Rat)
    (store : Store) :
    Formula × Store :=
  let (literal, pool, store) := store.internIn store.pool held value
  (literal, { store with pool })

/-- Remove the entries of literals that are no longer in use from a pool, and count them. -/
def sweepIn
    (pool : Pool)
    (held : List Formula)
    (store : Store) :
    Nat × Pool × Store :=
  let kept := pool.sweep (inUse held)
  let evicted := pool.size - kept.size
  (evicted, kept, store.record (.swept evicted kept.size))

/-- Sweep the pool of the store. -/
def sweep (held : List Formula) (store : Store) : Nat × Store :=
  let (evicted, pool, store) := store.sweepIn store.pool held
  (evicted, { store with pool })

mutual

/-- Give an identity to every node of a draft; parts that have been entered before stay as they are. -/
def enter (held : List Formula) : Formula → Store → Formula × Store
  | .literal none value, store => store.intern held value
  | .constant none name value, store =>
      let (id, store) := store.fresh
      (.constant (some id) name value, store)
  | .output none name inner, store =>
      let (inner, store) := enter held inner store
      let (id, store) := store.fresh
      (.output (some id) name inner, store)
  | .derived none op operands value, store =>
      let (operands, store) := enterAll held operands store
      let (id, store) := store.fresh
      (.derived (some id) op operands value, store)
  | .literal (some id) value, store => (.literal (some id) value, store)
  | .constant (some id) name value, store => (.constant (some id) name value, store)
  | .output (some id) name inner, store => (.output (some id) name inner, store)
  | .derived (some id) op operands value, store => (.derived (some id) op operands value, store)

/-- Enter drafts from left to right; each of them is held while the next ones are entered. -/
def enterAll (held : List Formula) : List Formula → Store → List Formula × Store
  | [], store => ([], store)
  | x :: rest, store =>
      let (x, store) := enter held x store
      let (rest, store) := enterAll (x :: held) rest store
      (x :: rest, store)

end

end Store
end ExactFormula
