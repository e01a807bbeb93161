import InfixAlgebra.Expr.Construction
import InfixAlgebra.Expr.Flatten
import InfixAlgebra.Record
import InfixAlgebra.Token

/-!
# The two-stack machine

Tokens are combined into a tree of negations and binary nodes.  The machine keeps a stack of
finished branches and a stack of pending operators and opening parentheses.  An incoming operator
first reduces the pending ones that take precedence over it.  Operators of one precedence do not
take precedence over each other, so chains nest to the right: `6-3-1` is `6-(3-1)`.  A minus with
nothing on its left is a negation; it takes precedence over `+`, `-`, `*` and `/`, but not over `^`.

The loops over pending entries leave the reduction of a single one to a `Reducer`.  Texts are read
with `Machine.reduce`: a text is read as the flattened tree of its tokens.  Reductions are put on
record as they happen, with the trees before they are flattened, and the result at the end.
-/

namespace InfixAlgebra

/-- The most levels that a tree read from a text may have. -/
def depthLimit : Nat := 512

/-- What waits for its right operand, or for its closing parenthesis. -/
inductive Pending where
  | opening
  | negation
  | binary (op : Operator)
  deriving DecidableEq

/-- The precedence of a negation. -/
def negationPrecedence : Nat := 2

/-- Whether a pending entry is reduced before an incoming operator is pushed.  A negation is also
reduced by an operator of its own precedence: `-3*4` is `(-3)*4`. -/
def Pending.precedes : Pending → Operator → Bool
  | .opening, _ => false
  | .negation, incoming => incoming.precedence ≤ negationPrecedence
  | .binary op, incoming => incoming.precedence < op.precedence

/-- A finished tree and its depth. -/
structure Branch (α : Type u) where
  expr : Expr α
  depth : Nat

/-- The machine between two tokens; its lists have the newest entry first. -/
structure Machine (α : Type u) where
  branches : List (Branch α)
  pending : List Pending
  /-- The token before the next one. -/
  previous : Option (Token α)
  /-- The trees that reductions have made. -/
  reductions : List (Expr α)

/-- A machine that stopped at a fault keeps the reductions it had made. -/
structure Halt (α : Type u) where
  fault : Fault
  reductions : List (Expr α)

/-- A way to combine the newest branches by a pending entry. -/
abbrev Reducer (α : Type u) := Machine α → Pending → Except (Halt α) (Machine α)

namespace Machine

variable {α : Type u}

/-- The machine before the first token. -/
def start : Machine α := ⟨[], [], none, []⟩

/-- Stops at a fault. -/
def halt {β : Type v} (m : Machine α) (fault : Fault) : Except (Halt α) β :=
  .error ⟨fault, m.reductions⟩

/-- Puts a number or symbol on the stack of branches. -/
def shift (m : Machine α) (terminal : Expr α) : Machine α :=
  { m with branches := ⟨terminal, 1⟩ :: m.branches }

/-- Puts a combined tree on the `branches` below its operands. -/
def grow (m : Machine α) (tree : Expr α) (depth : Nat) (branches : List (Branch α)) :
    Except (Halt α) (Machine α) :=
  if depth ≤ depthLimit then
    .ok { m with branches := ⟨tree, depth⟩ :: branches, reductions := tree :: m.reductions }
  else
    m.halt (.tooDeep depthLimit)

/-- Combines the newest branches by a pending operator; the right operand is the newest. -/
def reduce (m : Machine α) : Pending → Except (Halt α) (Machine α)
  | .opening => m.halt .mismatchedParens
  | .negation =>
    match m.branches with
    | operand :: rest => m.grow (.negation operand.expr) (operand.depth + 1) rest
    | _ => m.halt .malformed
  | .binary op =>
    match m.branches with
    | right :: left :: rest =>
      m.grow (.binary op left.expr right.expr) (max left.depth right.depth + 1) rest
    | _ => m.halt .malformed

/-- Puts an entry on the stack of pending ones. -/
def push (m : Machine α) (p : Pending) : Machine α := { m with pending := p :: m.pending }

/-- Nothing stands on the left of the next token: it is the first, or it follows an operator or an
opening parenthesis. -/
def leftIsEmpty (m : Machine α) : Bool :=
  match m.previous with
  | none | some (.operator _) | some .opening => true
  | _ => false

/-- The next token would close empty parentheses. -/
def justOpened (m : Machine α) : Bool :=
  match m.previous with
  | some .opening => true
  | _ => false

section Loops

variable (f : Reducer α)

/-- Reduces pending operators down to an opening parenthesis, and takes that away. -/
def reduceToOpening (m : Machine α) : List Pending → Except (Halt α) (Machine α)
  | [] => m.halt .mismatchedParens
  | .opening :: rest => .ok { m with pending := rest }
  | p :: rest =>
    match f m p with
    | .ok m => m.reduceToOpening rest
    | .error h => .error h

/-- Reduces the pending operators that take precedence over an incoming one. -/
def reducePreceding (m : Machine α) (incoming : Operator) :
    List Pending → Except (Halt α) (Machine α)
  | [] => .ok { m with pending := [] }
  | p :: rest =>
    if p.precedes incoming then
      match f m p with
      | .ok m => m.reducePreceding incoming rest
      | .error h => .error h
    else
      .ok { m with pending := p :: rest }

/-- Reduces all pending operators; an opening parenthesis among them was never closed. -/
def reduceAll (m : Machine α) : List Pending → Except (Halt α) (Machine α)
  | [] => .ok { m with pending := [] }
  | .opening :: _ => m.halt .mismatchedParens
  | p :: rest =>
    match f m p with
    | .ok m => m.reduceAll rest
    | .error h => .error h

/-- Takes an operator in. -/
def takeOperator (m : Machine α) (op : Operator) : Except (Halt α) (Machine α) :=
  if m.leftIsEmpty then
    if op = .sub then .ok (m.push .negation) else m.halt (.nothingOnLeft op)
  else
    match m.reducePreceding f op m.pending with
    | .ok m => .ok (m.push (.binary op))
    | .error h => .error h

/-- Takes a token in, except for remembering it. -/
def take (m : Machine α) : Token α → Except (Halt α) (Machine α)
  | .number x => .ok (m.shift (.number x))
  | .symbol s => .ok (m.shift (.symbol s))
  | .operator op => m.takeOperator f op
  | .opening => .ok (m.push .opening)
  | .closing => if m.justOpened then m.halt .emptyParens else m.reduceToOpening f m.pending

/-- Takes a token in. -/
def step (m : Machine α) (token : Token α) : Except (Halt α) (Machine α) :=
  match m.take f token with
  | .ok m => .ok { m with previous := some token }
  | .error h => .error h

/-- Takes tokens in, one after the other. -/
def run (m : Machine α) : List (Token α) → Except (Halt α) (Machine α)
  | [] => .ok m
  | token :: rest =>
    match m.step f token with
    | .ok m => m.run rest
    | .error h => .error h

/-- The only branch that is left when nothing is pending any more. -/
def finish (m : Machine α) : Except (Halt α) (Machine α × Expr α) :=
  match m.reduceAll f m.pending with
  | .ok m =>
    match m.branches with
    | [branch] => .ok (m, branch.expr)
    | _ => m.halt .malformed
  | .error h => .error h

/-- Combines tokens into a tree by any reduction. -/
def buildBy (tokens : List (Token α)) : Except (Halt α) (Machine α × Expr α) :=
  if tokens.isEmpty then
    start.halt .emptyText
  else
    match start.run f tokens with
    | .ok m => m.finish f
    | .error h => .error h

end Loops

/-- Combines tokens into a tree by `reduce`; the machine at the end comes with it. -/
def build (tokens : List (Token α)) : Except (Halt α) (Machine α × Expr α) :=
  buildBy reduce tokens

end Machine

/-! ## Reading expressions -/

/-- The outcome of reading a text, and what was put on record on the way. -/
structure Reading (α : Type u) where
  outcome : Except Fault (Expr α)
  records : List (Record α)

namespace Expr

variable {α : Type u} [Numeric α]

/-- Reads a text, on record. -/
def read (text : String) : Reading α :=
  match Token.ofText text with
  | .error fault => ⟨.error fault, []⟩
  | .ok tokens =>
    match Machine.build tokens with
    | .error h => ⟨.error h.fault, h.reductions.reverse.map .reduced⟩
    | .ok (m, tree) =>
      ⟨.ok tree.flatten, m.reductions.reverse.map .reduced ++ [.parsed text tree.flatten]⟩

/-- The expression that a text writes. -/
def parse (text : String) : Except Fault (Expr α) := (read text).outcome

end Expr

end InfixAlgebra
