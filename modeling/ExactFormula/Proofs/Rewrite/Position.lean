import ExactFormula.Proofs.Store.Session

/-!
# Positions

A position is a node of a formula with everything that stands around it.  The
positions of a formula are listed in pre-order: a node before its operands, and
operands from left to right.  Rewriting replaces the node at the first position
that the rule matches, outputs apart, and leaves the rest in its place.  Every
formula of a session is rewritten in this way.
-/

namespace ExactFormula
namespace Formula

/-! ## Flat formulas -/

/-- None of the operands of a chain is a chain of the same kind. -/
def IsFlat : Formula → Prop
  | derived _ op operands _ => op.isAssociative = true → ∀ x ∈ operands, x.op? ≠ some op
  | _ => True

/-- No chain stands directly in a chain of its own kind. -/
def Flat (x : Formula) : Prop :=
  Everywhere IsFlat x

/-- In a well-formed formula, chains are flat. -/
theorem WellFormed.flat {x : Formula} (wellFormed : WellFormed x) : Flat x := by
  intro node occurs
  have fits := wellFormed node occurs
  cases node with
  | derived id op operands value => exact fits.2
  | literal | constant | output => trivial

/-! ## Frames -/

/-- A node without one of its parts. -/
inductive Frame
  /-- An output without what it wraps. -/
  | output (id : Option NodeId) (name : String)
  /-- An operator without one operand, and the operands on the left and on the right of it. -/
  | operand
      (id : Option NodeId)
      (op : Operator)
      (left right : List Formula)
      (value : Rat)

namespace Frame

/-- The node with the part back in its place. -/
def around : Frame → Formula → Formula
  | output id name, x => .output id name x
  | operand id op left right value, x => .derived id op (left ++ x :: right) value

/-- What a formula leaves in an operand list: a chain in one of its own kind leaves its operands. -/
def placed (op : Operator) (x : Formula) : List Formula :=
  if op.isAssociative = true ∧ x.op? = some op then x.operands else [x]

/--
A new node with another part in the place.  It has the name, or the operator and
the value, that the node had, and the very operands on both sides.
-/
def rebuilt : Frame → Formula → Formula
  | output _ name, x => .output none name x
  | operand _ op left right value, x => .derived none op (left ++ placed op x ++ right) value

end Frame

/-- A node of a formula, and the frames around it from the root down. -/
structure Position where
  /-- The frames around the node, the outermost first. -/
  frames : List Frame
  /-- The node. -/
  node : Formula

namespace Position

/-- The formula that a position belongs to. -/
def whole (position : Position) : Formula :=
  position.frames.foldr Frame.around position.node

/-- The formula with a replacement for the node, and all frames built anew. -/
def replaced (position : Position) (replacement : Formula) : Formula :=
  position.frames.foldr Frame.rebuilt replacement

/-- A position in a part of a formula is one in the formula. -/
def within (frame : Frame) (position : Position) : Position where
  frames := frame :: position.frames
  node := position.node

@[simp] theorem node_within (frame : Frame) (position : Position) :
    (position.within frame).node = position.node := rfl

end Position

mutual

/-- The positions of a formula in pre-order. -/
def positions : Formula → List Position
  | literal id value => [⟨[], literal id value⟩]
  | constant id name value => [⟨[], constant id name value⟩]
  | output id name inner =>
      ⟨[], output id name inner⟩ :: (positions inner).map (.within (.output id name))
  | derived id op operands value =>
      ⟨[], derived id op operands value⟩ ::
        positionsAmong (fun left right => .operand id op left right value) [] operands

/-- The positions in some operands, given those on the left of them. -/
def positionsAmong
    (frame : List Formula → List Formula → Frame)
    (left : List Formula) :
    List Formula → List Position
  | [] => []
  | x :: right =>
      (positions x).map (.within (frame left right)) ++ positionsAmong frame (left ++ [x]) right

end

/-! ## Positions and nodes -/

section

variable {x node : Formula} {frame : Frame} {frames : List Frame} {position : Position}

/-- A position among operands is one in an operand, with the other operands left and right of it. -/
theorem mem_positionsAmong_iff
    {frame : List Formula → List Formula → Frame}
    {operands left : List Formula} :
    position ∈ positionsAmong frame left operands ↔
      ∃ before x after, operands = before ++ x :: after ∧
        ∃ inside ∈ positions x, inside.within (frame (left ++ before) after) = position := by
  induction operands generalizing left with
  | nil => simp [positionsAmong]
  | cons first rest inductionHypothesis =>
      rw [positionsAmong, List.mem_append, List.mem_map, inductionHypothesis]
      constructor
      · rintro (⟨inside, member, rfl⟩ | ⟨before, x, after, rfl, inside, member, rfl⟩)
        · exact ⟨[], first, rest, rfl, inside, member, by rw [List.append_nil]⟩
        · exact ⟨first :: before, x, after, rfl, inside, member, by simp⟩
      · rintro ⟨before, x, after, split, inside, member, rfl⟩
        obtain ⟨rfl, same⟩ | ⟨tail, rfl, rfl⟩ := List.cons_eq_append_iff.mp split
        · obtain ⟨rfl, rfl⟩ := List.cons.inj same
          exact .inl ⟨inside, member, by rw [List.append_nil]⟩
        · exact .inr ⟨tail, x, after, rfl, inside, member, by simp⟩

/-- Without frames there is the root alone. -/
theorem mem_positions_root_iff : ⟨[], node⟩ ∈ x.positions ↔ node = x := by
  cases x <;> simp [positions, Position.within, mem_positionsAmong_iff]

theorem Position.within_eq_iff {other : Frame} :
    position.within other = ⟨frame :: frames, node⟩ ↔
      other = frame ∧ position = ⟨frames, node⟩ := by
  cases position
  simp [within, and_assoc]

/-- Under a frame there is a part of the formula. -/
theorem mem_positions_frame_iff :
    ⟨frame :: frames, node⟩ ∈ x.positions ↔
      ∃ part, frame.around part = x ∧ ⟨frames, node⟩ ∈ part.positions := by
  cases x with
  | literal | constant => cases frame <;> simp [positions, Frame.around]
  | output id name inner =>
      simp only [positions, List.mem_cons, List.mem_map, Position.within_eq_iff, Position.mk.injEq,
        reduceCtorEq, false_and, false_or]
      constructor
      · rintro ⟨_, member, rfl, rfl⟩
        exact ⟨inner, rfl, member⟩
      · rintro ⟨part, same, member⟩
        cases frame with
        | output =>
            cases same
            exact ⟨_, member, rfl, rfl⟩
        | operand => cases same
  | derived id op operands value =>
      simp only [positions, List.mem_cons, mem_positionsAmong_iff, Position.within_eq_iff,
        Position.mk.injEq, reduceCtorEq, false_and, false_or, List.nil_append]
      constructor
      · rintro ⟨left, part, right, rfl, _, member, rfl, rfl⟩
        exact ⟨part, rfl, member⟩
      · rintro ⟨part, same, member⟩
        cases frame with
        | output => cases same
        | operand =>
            cases same
            exact ⟨_, part, _, rfl, _, member, rfl, rfl⟩

/-- The positions of a formula are all the ways to take a node out of it. -/
theorem mem_positions_iff : position ∈ x.positions ↔ position.whole = x := by
  obtain ⟨frames, node⟩ := position
  induction frames generalizing x with
  | nil => exact mem_positions_root_iff
  | cons frame frames inductionHypothesis =>
      rw [mem_positions_frame_iff]
      constructor
      · rintro ⟨part, rfl, member⟩
        exact congrArg frame.around (inductionHypothesis.mp member)
      · rintro rfl
        exact ⟨_, rfl, inductionHypothesis.mpr rfl⟩

/-- The node at a position is a node of the formula. -/
theorem Position.occurs_whole (position : Position) : Occurs position.node position.whole := by
  obtain ⟨frames, node⟩ := position
  induction frames with
  | nil => exact .root
  | cons frame frames inductionHypothesis =>
      cases frame with
      | output id name => exact .inner inductionHypothesis
      | operand id op left right value =>
          exact .operand (List.mem_append_right left List.mem_cons_self) inductionHypothesis

/-- The nodes of a formula are those at its positions. -/
theorem occurs_iff_exists_position :
    Occurs node x ↔ ∃ position ∈ x.positions, position.node = node := by
  constructor
  · intro occurs
    induction occurs with
    | root => exact ⟨⟨[], node⟩, mem_positions_root_iff.mpr rfl, rfl⟩
    | @inner id name x _ inductionHypothesis =>
        obtain ⟨inside, member, rfl⟩ := inductionHypothesis
        exact ⟨inside.within (.output id name), mem_positions_frame_iff.mpr ⟨x, rfl, member⟩, rfl⟩
    | @operand id op operands value x present _ inductionHypothesis =>
        obtain ⟨inside, member, rfl⟩ := inductionHypothesis
        obtain ⟨left, right, rfl⟩ := List.append_of_mem present
        exact ⟨inside.within (.operand id op left right value),
          mem_positions_frame_iff.mpr ⟨x, rfl, member⟩, rfl⟩
  · rintro ⟨position, member, rfl⟩
    obtain rfl := mem_positions_iff.mp member
    exact position.occurs_whole

end

/-! ## The first match -/

/-- What a rule makes of a formula at a position; outputs are passed over. -/
def attempt (rule : Formula → Option Formula) (position : Position) : Option Formula :=
  if position.node.inner? = none then (rule position.node).map position.replaced else none

section

variable (rule : Formula → Option Formula)

/-- What a rule makes of a part is put back into the frame around it. -/
theorem attempt_within (frame : Frame) (position : Position) :
    attempt rule (position.within frame) = (attempt rule position).map frame.rebuilt := by
  unfold attempt
  rw [Position.node_within]
  split
  · rw [Option.map_map]
    rfl
  · rfl

/-- The first answer in a part is put back into the frame around it. -/
theorem findSome?_attempt_within (frame : Frame) (inside : List Position) :
    (inside.map (.within frame)).findSome? (attempt rule) =
      (inside.findSome? (attempt rule)).map frame.rebuilt := by
  rw [List.findSome?_map, List.map_findSome?]
  exact congrArg (List.findSome? · inside) (funext (attempt_within rule frame))

/-- In a flat operand list only the operand that is new can be spliced. -/
theorem splice_replaced
    {op : Operator}
    {left right : List Formula}
    (flat : op.isAssociative = true → ∀ x ∈ left ++ right, x.op? ≠ some op)
    (y : Formula) :
    splice op (left ++ y :: right) = left ++ Frame.placed op y ++ right := by
  have kept : ∀ x : Formula, x.op? ≠ some op → spliced op x = [x] := by
    intro x other
    cases x with
    | derived id child operands value => exact if_neg fun same => other (congrArg some same)
    | literal | constant | output => rfl
  have unchanged : ∀ xs : List Formula, (∀ x ∈ xs, x.op? ≠ some op) →
      xs.flatMap (spliced op) = xs := by
    intro xs others
    induction xs with
    | nil => rfl
    | cons x xs inductionHypothesis =>
        rw [List.forall_mem_cons] at others
        rw [List.flatMap_cons, kept x others.1, inductionHypothesis others.2]
        rfl
  unfold splice Frame.placed
  by_cases associative : op.isAssociative = true
  · have outside := flat associative
    rw [List.forall_mem_append] at outside
    rw [if_pos associative, List.flatMap_append, List.flatMap_cons, unchanged left outside.1,
      unchanged right outside.2]
    by_cases chain : y.op? = some op
    · cases y with
      | derived id child held value =>
          obtain rfl : child = op := Option.some.inj chain
          simp [spliced, associative, op?, operands]
      | literal | constant | output => simp [op?] at chain
    · simp [kept y chain, chain]
  · simp [associative]

mutual

/-- Rewriting takes the first position at which the rule has an answer. -/
theorem rewriteFirst?_eq_findSome? :
    ∀ x : Formula, Flat x → rewriteFirst? rule x = x.positions.findSome? (attempt rule)
  | literal id value, _ => by
      cases answer : rule (literal id value) <;>
        simp [rewriteFirst?, positions, attempt, inner?, Position.replaced, answer]
  | constant id name value, _ => by
      cases answer : rule (constant id name value) <;>
        simp [rewriteFirst?, positions, attempt, inner?, Position.replaced, answer]
  | output id name inner, flat => by
      have inside := rewriteFirst?_eq_findSome? inner (everywhere_output.mp flat).2
      rw [rewriteFirst?, inside, positions, List.findSome?_cons, findSome?_attempt_within]
      rfl
  | derived id op operands value, flat => by
      obtain ⟨here, inside⟩ := everywhere_derived.mp flat
      have among := findSome?_positionsAmong id op value [] operands here inside
      rw [rewriteFirst?, positions, List.findSome?_cons, among]
      cases answer : rule (derived id op operands value) <;>
        simp [attempt, inner?, Position.replaced, answer]

/-- The same for a list of operands, with those on the left of them in place. -/
theorem findSome?_positionsAmong
    (id : Option NodeId)
    (op : Operator)
    (value : Rat)
    (left : List Formula) :
    ∀ operands : List Formula,
      (op.isAssociative = true → ∀ x ∈ left ++ operands, x.op? ≠ some op) →
      (∀ x ∈ operands, Flat x) →
      (positionsAmong (fun left right => .operand id op left right value) left operands).findSome?
          (attempt rule) =
        (rewriteFirstOf? rule operands).map fun rebuilt => ofValue op (left ++ rebuilt) value
  | [], _, _ => rfl
  | x :: right, flat, inside => by
      rw [List.forall_mem_cons] at inside
      have first := rewriteFirst?_eq_findSome? x inside.1
      have later := findSome?_positionsAmong id op value (left ++ [x]) right (by simpa using flat)
        inside.2
      rw [positionsAmong, List.findSome?_append, findSome?_attempt_within, ← first, later,
        rewriteFirstOf?]
      cases rewriteFirst? rule x with
      | some y =>
          have outside : op.isAssociative = true → ∀ x ∈ left ++ right, x.op? ≠ some op := by
            intro associative z member
            refine flat associative z ?_
            simp only [List.mem_append, List.mem_cons] at member ⊢
            tauto
          simp [ofValue, splice_replaced outside, Frame.rebuilt]
      | none =>
          simp only [Option.map_none, Option.none_or, Option.map_map]
          congr 1
          funext rebuilt
          simp

end

/-- There is no answer at outputs, and at nodes that the rule declines. -/
theorem attempt_eq_none_iff {position : Position} :
    attempt rule position = none ↔ (position.node.inner? = none → rule position.node = none) := by
  unfold attempt
  split <;> simp_all

/-- An answer is that of the rule, put into the place of the node. -/
theorem attempt_eq_some_iff {position : Position} {y : Formula} :
    attempt rule position = some y ↔
      position.node.inner? = none ∧
        ∃ replacement, rule position.node = some replacement ∧
          position.replaced replacement = y := by
  unfold attempt
  split <;> simp_all

/--
Rewriting is leftmost-outermost replacement.  There is none exactly when the rule
declines every node but the outputs; otherwise the node at the first position that
is no output and that the rule does not decline gives way to the answer of the rule,
and everything around it stays in its place.
-/
theorem rewriteFirst?_leftmost_outermost {x : Formula} (flat : Flat x) :
    (rewriteFirst? rule x = none ↔
        ∀ node, Occurs node x → node.inner? = none → rule node = none) ∧
      (∀ y, rewriteFirst? rule x = some y ↔
        ∃ earlier position later replacement,
          x.positions = earlier ++ position :: later ∧
          (∀ other ∈ earlier, other.node.inner? = none → rule other.node = none) ∧
          position.node.inner? = none ∧ rule position.node = some replacement ∧
          position.replaced replacement = y) ∧
      ∀ position, position ∈ x.positions ↔ position.whole = x := by
  have first := rewriteFirst?_eq_findSome? rule x flat
  refine ⟨?_, fun y => ?_, fun position => mem_positions_iff⟩
  · rw [first, List.findSome?_eq_none_iff]
    simp only [attempt_eq_none_iff, occurs_iff_exists_position]
    constructor
    · rintro declined _ ⟨position, member, rfl⟩
      exact declined position member
    · exact fun declined position member => declined _ ⟨position, member, rfl⟩
  · rw [first, List.findSome?_eq_some_iff]
    simp only [attempt_eq_none_iff, attempt_eq_some_iff]
    constructor
    · rintro ⟨earlier, position, later, listed, ⟨offered, replacement, answer, rfl⟩, declined⟩
      exact ⟨earlier, position, later, replacement, listed, declined, offered, answer, rfl⟩
    · rintro ⟨earlier, position, later, replacement, listed, declined, offered, answer, rfl⟩
      exact ⟨earlier, position, later, listed, ⟨offered, replacement, answer, rfl⟩, declined⟩

end

/-- A product of one and a sum gives way to the sum, which is spliced into the sum around it. -/
theorem rewriteFirst?_leftmost_outermost_spliced :
    let inner := derived (some 3) .add [literal (some 1) 2, literal (some 2) 3] 5
    let product := derived (some 5) .mul [literal (some 4) 1, inner] 5
    let outer := derived (some 8) .add [literal (some 6) 4, product, literal (some 7) 1] 10
    Flat outer ∧
      rewriteFirst? Rule.multiplicativeIdentity.apply outer =
        some (derived none .add
          [literal (some 6) 4, literal (some 1) 2, literal (some 2) 3, literal (some 7) 1] 10) := by
  intro inner product outer
  have flat : Flat outer := by
    simp [outer, product, inner, Flat, everywhere_derived, everywhere_literal, IsFlat, op?,
      Operator.isAssociative]
  refine ⟨flat, ((rewriteFirst?_leftmost_outermost _ flat).2.1 _).mpr ?_⟩
  refine ⟨[⟨[], outer⟩, ⟨[.operand (some 8) .add [] [product, literal (some 7) 1] 10],
      literal (some 6) 4⟩],
    ⟨[.operand (some 8) .add [literal (some 6) 4] [literal (some 7) 1] 10], product⟩, _, inner,
    rfl, ?_, rfl, rfl, rfl⟩
  simp only [List.forall_mem_cons]
  exact ⟨fun _ => rfl, fun _ => rfl, by simp⟩

end Formula

open Formula

/-- Of whatever is built on formulas of a session, a rule rewrites the first position it matches. -/
theorem Session.rewriteFirst?_eq_findSome?
    {store : Store}
    {held : List Formula}
    {draft : Formula}
    (session : Session store held)
    (drafted : Drafted held draft)
    (rule : Formula → Option Formula) :
    rewriteFirst? rule draft = draft.positions.findSome? (attempt rule) := by
  have wellFormed : WellFormed draft :=
    inherited_wellFormed.of_drafted drafted session.wellFormed
  exact Formula.rewriteFirst?_eq_findSome? rule draft wellFormed.flat

end ExactFormula
