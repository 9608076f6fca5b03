import MarkovDecision.LinearProgram.Basic

/-!
# The simplex method in two phases

The constraints of a program become equations by one *slack* coordinate each, and
a constraint from below gets an *artificial* coordinate besides, so that every
equation starts out solved for a coordinate of its own. A tableau is such a list
of solved equations – the coordinate an equation is solved for is its entry in
the *basis* – together with a cost equation from which the solved coordinates
have been eliminated. The first phase makes the artificial coordinates vanish by
taking their sum for the cost; the second takes the cost of the program and never
lets an artificial coordinate back in.

Coordinates are columns in a fixed order, the unknowns first, then one slack for
each equation, then one artificial for each equation (a zero column where the
equation needs none). The order matters: the column that enters the basis is the
*first* improving one, and among the rows that bound the step equally the one
leaves whose basic column comes first. That choice is what keeps a degenerate
program – most bounds of a reachability program are zero – from revisiting a
basis.

Comparisons allow for rounding by a tolerance, and the number of pivots by a
limit, both parameters of the search: `Tolerance.working` is what the queries
use, and exact arithmetic may set both tolerances to zero.
-/

namespace MarkovDecision

variable {K : Type} [Scalar K]

/-- What counts as zero. -/
structure Tolerance (K : Type) where
  /-- For reduced costs, pivots and ratios. -/
  entry : K
  /-- For the sum of the artificial coordinates after the first phase. -/
  residue : K

/-- The tolerances of the reachability queries. -/
def Tolerance.working : Tolerance K := ⟨1e-9, 1e-7⟩

/-- The number of pivots after which a search is broken off. -/
def pivotLimit : Nat := 100000

/-- `m` equations in `c` columns, each solved for one of them, and a cost equation. -/
structure Tableau (K : Type) (m c : Nat) where
  /-- The equations. -/
  rows : Vector (Equation K c) m
  /-- The column each equation is solved for. -/
  basis : Vector (Fin c) m
  /-- The cost, with the negative of its value on the right. -/
  cost : Equation K c
  /-- How many pivots have led here. -/
  pivots : Nat

namespace Tableau

variable {m c : Nat}

/-- **Solving row `i` for column `j`**: the row is divided by its entry in that column, and the
column is cleared from every other row and from the cost. -/
def pivot (t : Tableau K m c) (i : Fin m) (j : Fin c) : Tableau K m c :=
  let row := (t.rows.get i).dividedBy ((t.rows.get i).coeffs.get j)
  let clear (e : Equation K c) : Equation K c :=
    if e.coeffs.get j == 0 then e else e.minus (e.coeffs.get j) row
  { rows := Vector.ofFn fun r => if r = i then row else clear (t.rows.get r)
    basis := replaceAt t.basis i j
    cost := clear t.cost
    pivots := t.pivots + 1 }

/-- The first column below `limit` whose reduced cost is negative. -/
def entering (tol : K) (limit : Nat) (t : Tableau K m c) : Option (Fin c) :=
  (List.finRange c).find? fun j => decide (j < limit) && decide (t.cost.coeffs.get j < -tol)

/-- The ratio test, one row at a time: a row with a smaller ratio replaces the best so far, and
among equal ratios the row whose basic column comes first. -/
def closer (tol : K) (t : Tableau K m c) (j : Fin c) (best : Option (Fin m × K)) (i : Fin m) :
    Option (Fin m × K) :=
  let entry := (t.rows.get i).coeffs.get j
  if tol < entry then
    let ratio := (t.rows.get i).rhs / entry
    match best with
    | none => some (i, ratio)
    | some (b, least) =>
      if ratio < least - tol ∨ (ratio ≤ least + tol ∧ t.basis.get i < t.basis.get b) then
        some (i, ratio)
      else some (b, least)
  else best

/-- The row that leaves when column `j` enters, if the step is bounded. -/
def leaving (tol : K) (t : Tableau K m c) (j : Fin c) : Option (Fin m) :=
  ((List.finRange m).foldl (t.closer tol j) none).map Prod.fst

/-- **The search**: pivots until no column below `limit` improves the cost. It fails where the
step is unbounded, and once `most` pivots have been made. -/
def run (tol : K) (limit most : Nat) (t : Tableau K m c) :
    Except LinearProgram.Failure (Tableau K m c) :=
  match t.entering tol limit with
  | none => .ok t
  | some j =>
    match t.leaving tol j with
    | none => .error .unbounded
    | some i =>
      let next := t.pivot i j
      if most ≤ next.pivots then .error (.pivotLimit next.pivots)
      else run tol limit most next
termination_by most - t.pivots
decreasing_by
  have : (t.pivot i j).pivots = t.pivots + 1 := rfl
  have : ¬most ≤ (t.pivot i j).pivots := by assumption
  omega

/-- Takes `factor` times row `i` from the cost. -/
def price (t : Tableau K m c) (i : Fin m) (factor : K) : Tableau K m c :=
  { t with cost := t.cost.minus factor (t.rows.get i) }

end Tableau

namespace LinearProgram

variable {n m : Nat}

/-- The constraint of a row, with a bound that is not negative. -/
def row (lp : LinearProgram K n m) (i : Fin m) : Constraint K n := (lp.constraints.get i).upright

/-- The slack column of a row. -/
def slack (i : Fin m) : Fin (n + m + m) := ⟨n + i, by omega⟩

/-- The artificial column of a row. -/
def artificial (i : Fin m) : Fin (n + m + m) :=
  ⟨n + m + i, by omega⟩

/-- The equation of a row: the form, a slack of sign one from above and of sign minus one from
below, and from below an artificial. -/
def equation (lp : LinearProgram K n m) (i : Fin m) : Equation K (n + m + m) where
  coeffs := Vector.ofFn fun j =>
    if h : j.val < n then (lp.row i).coeffs.get ⟨j, h⟩
    else if j = slack i then (match (lp.row i).sense with | .le => 1 | .ge => -1)
    else if j = artificial i then (match (lp.row i).sense with | .le => 0 | .ge => 1)
    else 0
  rhs := (lp.row i).rhs

/-- The column the equation of a row starts out solved for. -/
def start (lp : LinearProgram K n m) (i : Fin m) : Fin (n + m + m) :=
  match (lp.row i).sense with
  | .le => slack i
  | .ge => artificial i

/-- Whether some row needs its artificial column. -/
def needsArtificial (lp : LinearProgram K n m) : Bool :=
  (List.finRange m).any fun i => (lp.row i).sense = .ge

/-- The sum of the artificial columns in use. -/
def artificialCost (lp : LinearProgram K n m) : Equation K (n + m + m) where
  coeffs := Vector.ofFn fun j =>
    if (List.finRange m).any fun i => (lp.row i).sense = .ge && j = artificial i then 1
    else 0
  rhs := 0

/-- The cost of the program. -/
def ownCost (lp : LinearProgram K n m) : Equation K (n + m + m) where
  coeffs := Vector.ofFn fun j => if h : j.val < n then lp.objective.get ⟨j, h⟩ else 0
  rhs := 0

/-- The equations as they stand before any pivot. -/
def initial (lp : LinearProgram K n m) : Tableau K m (n + m + m) where
  rows := Vector.ofFn lp.equation
  basis := Vector.ofFn lp.start
  cost := lp.artificialCost
  pivots := 0

/-- The tableau of the first phase, with the artificial basic columns priced out of the cost. -/
def phaseOne (lp : LinearProgram K n m) : Tableau K m (n + m + m) :=
  (List.finRange m).foldl
    (fun t i => if n + m ≤ (t.basis.get i).val then t.price i 1 else t) lp.initial

/-- Solves a row for a column that is not artificial, if it is solved for an artificial one and
has an entry elsewhere. -/
def driveOut (tol : K) (t : Tableau K m (n + m + m))
    (i : Fin m) : Tableau K m (n + m + m) :=
  if (t.basis.get i).val < n + m then t
  else
    match (List.finRange (n + m + m)).find? fun (j : Fin (n + m + m)) =>
        decide (j.val < n + m) && decide (tol < Scalar.magnitude ((t.rows.get i).coeffs.get j)) with
    | none => t
    | some j => t.pivot i j

/-- The first phase: a tableau whose artificial coordinates vanish. -/
def feasible (lp : LinearProgram K n m) (tol : Tolerance K) (most : Nat) :
    Except Failure (Tableau K m (n + m + m)) := do
  if lp.needsArtificial then
    let t ← lp.phaseOne.run tol.entry (n + m + m) most
    if tol.residue < -t.cost.rhs then throw .infeasible
    return (List.finRange m).foldl (driveOut tol.entry) t
  else
    return lp.initial

/-- The tableau of the second phase, with the basic unknowns priced out of the cost. -/
def phaseTwo (lp : LinearProgram K n m) (t : Tableau K m (n + m + m)) :
    Tableau K m (n + m + m) :=
  (List.finRange m).foldl
    (fun t i =>
      if h : (t.basis.get i).val < n then
        let unit := lp.objective.get ⟨t.basis.get i, h⟩
        if unit == 0 then t else t.price i unit
      else t)
    { t with cost := lp.ownCost }

/-- The point a tableau stands for: a basic unknown has the value of its row, the others none. -/
def point (t : Tableau K m (n + m + m)) : Vector K n :=
  (List.finRange m).foldl
    (fun x i =>
      if h : (t.basis.get i).val < n then replaceAt x ⟨t.basis.get i, h⟩ (t.rows.get i).rhs else x)
    (Vector.replicate n 0)

/-- **The point of least cost**, or the reason why there is none. Without constraints that point
is the origin, unless a cost is negative. -/
def solveWithin (lp : LinearProgram K n m) (tol : Tolerance K) (most : Nat) :
    Except Failure (Vector K n) := do
  if m = 0 then
    if lp.objective.any fun cost => decide (cost < 0) then throw .unbounded
    return Vector.replicate n 0
  let t ← lp.feasible tol most
  let t ← (lp.phaseTwo t).run tol.entry (n + m) most
  return point t

/-- The point of least cost, at the working tolerance. -/
def solve (lp : LinearProgram K n m) : Except Failure (Vector K n) :=
  lp.solveWithin Tolerance.working pivotLimit

end LinearProgram

end MarkovDecision
