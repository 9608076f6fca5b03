import MarkovDecision.Proofs.Query.Solvable

/-!
# What the graph decides

An unbounded query sorts the states before it computes anything, by two sets that
grow until nothing can be added. What the sets mean is a matter of paths
(`Reachability.Possible`), and of three statements about them:

* a state is *certain* if for some number of steps every path of that many steps from it
  visits the target (`Reachability.certain_iff_exists_inevitable`);
* it is *never* there if no path from it does (`Reachability.reaching_iff_exists_path`);
* if it is neither, some path leads from it through undecided states to a certain one
  (`Reachability.exists_leaving`).

The first is stronger than a probability of one. A state that stays where it is with a
positive probability has a path of any length that does not leave it, so it is left to
the arithmetic, however sure it is to be left in the end. Outside the set such a path
can always be prolonged, as the rule has failed there for good; inside it the numbers
of steps have a bound, because a state has finitely many targets.

The third is why the arithmetic is sound: what is left of the matrix loses weight from
every state, so that the system of the undecided states is regular and its solution is
positive (`Reachability.classify_iff_paths`).
-/

namespace MarkovDecision

open Finset

namespace Reachability

variable {n : ℕ} {p : Matrix ℚ n n} {target s t : Fin n} {rest : List (Fin n)} {j k : ℕ}

/-! ### Paths -/

/-- A path of positive probability: each of its states steps to the next one. -/
def Possible (p : Matrix ℚ n n) (path : List (Fin n)) : Prop :=
  path.IsChain fun s t => 0 < p.entry s t

/-- Every path of a number of steps from a state visits the target. -/
def Inevitable (p : Matrix ℚ n n) (target : Fin n) (k : ℕ) (s : Fin n) : Prop :=
  ∀ rest : List (Fin n), rest.length = k → Possible p (s :: rest) → target ∈ s :: rest

theorem possible_cons_cons :
    Possible p (s :: t :: rest) ↔ 0 < p.entry s t ∧ Possible p (t :: rest) :=
  List.isChain_cons_cons

/-- A path visits what the beginning of it visits. -/
theorem Inevitable.mono (h : Inevitable p target k s) (hkj : k ≤ j) :
    Inevitable p target j s := by
  intro rest hlength hpath
  have hbegin : Possible p (s :: rest.take k) := List.IsChain.take hpath (k + 1)
  have htake : (rest.take k).length = k := by
    rw [List.length_take, hlength, Nat.min_eq_left hkj]
  exact List.take_subset (k + 1) (s :: rest) (h (rest.take k) htake hbegin)

/-- What cannot be avoided after any step cannot be avoided. -/
theorem Inevitable.step (h : ∀ t, 0 < p.entry s t → Inevitable p target k t) :
    Inevitable p target (k + 1) s := by
  intro rest hlength hpath
  rcases rest with _ | ⟨t, rest⟩
  · cases hlength
  · obtain ⟨hst, htail⟩ := possible_cons_cons.mp hpath
    exact List.mem_cons_of_mem s (h t hst rest (Nat.succ.inj hlength) htail)

/-- A step may stand in front of a path that visits the target. -/
theorem exists_path_of_step (hst : 0 < p.entry s t)
    (h : ∃ rest, Possible p (t :: rest) ∧ target ∈ t :: rest) :
    ∃ rest, Possible p (s :: rest) ∧ target ∈ s :: rest := by
  obtain ⟨rest, hpath, hvisit⟩ := h
  exact ⟨t :: rest, possible_cons_cons.mpr ⟨hst, hpath⟩, List.mem_cons_of_mem s hvisit⟩

/-! ### Certain states -/

/-- **From a certain state the target cannot be avoided**: finitely many steps lead on, and the
longest of the numbers of steps after them is enough. -/
theorem exists_inevitable (hs : (certainSet p target).get s = true) :
    ∃ k, Inevitable p target k s := by
  refine Marks.grow_induction (P := fun s => ∃ k, Inevitable p target k s) (fun t ht => ?_)
    (fun marks hmarks t ht => ?_) s hs
  · rw [Marks.get_single, decide_eq_true_eq] at ht
    exact ⟨0, fun rest _ _ => ht ▸ List.mem_cons_self⟩
  · have hnext : ∀ r, ∃ k, 0 < p.entry t r → Inevitable p target k r := by
      intro r
      have hrule := List.all_eq_true.mp ht r (List.mem_finRange r)
      rw [Bool.or_eq_true, beq_iff_eq] at hrule
      rcases hrule with hmark | hzero
      · obtain ⟨k, hk⟩ := (hmarks r hmark).2
        exact ⟨k, fun _ => hk⟩
      · exact ⟨0, fun hpos => absurd hzero hpos.ne'⟩
    choose steps hsteps using hnext
    exact ⟨univ.sup steps + 1, .step fun r hr => (hsteps r hr).mono (le_sup (mem_univ r))⟩

/-- **From any other state it can be avoided** for any number of steps. -/
theorem exists_avoiding (hnonneg : ∀ s t, 0 ≤ p.entry s t)
    (hs : (certainSet p target).get s ≠ true) (k : ℕ) :
    ∃ rest, rest.length = k ∧ Possible p (s :: rest) ∧ target ∉ s :: rest := by
  have hne : ∀ {s}, (certainSet p target).get s ≠ true → target ≠ s := by
    rintro s hs rfl
    exact hs certainSet_target
  induction k generalizing s with
  | zero => exact ⟨[], rfl, .singleton s, fun h => hne hs (List.mem_singleton.mp h)⟩
  | succ k ih =>
    -- the rule fails, so some step leads to a state outside the set
    have hrule := Marks.rule_grow hs
    simp only [ne_eq, List.all_eq_true, List.mem_finRange, forall_const, Bool.or_eq_true,
      beq_iff_eq, not_forall, not_or] at hrule
    obtain ⟨t, ht, hst⟩ := hrule
    obtain ⟨rest, hlength, hpath, hmiss⟩ := ih ht
    refine ⟨t :: rest, congrArg (· + 1) hlength, possible_cons_cons.mpr ⟨?_, hpath⟩, ?_⟩
    · exact lt_of_le_of_ne (hnonneg s t) (Ne.symm hst)
    · exact fun h => (List.mem_cons.mp h).elim (hne hs) hmiss

/-- **The certain states** are those from which the target cannot be avoided for ever. -/
theorem certain_iff_exists_inevitable (hnonneg : ∀ s t, 0 ≤ p.entry s t) :
    (certainSet p target).get s = true ↔ ∃ k, Inevitable p target k s := by
  refine ⟨exists_inevitable, fun ⟨k, hk⟩ => ?_⟩
  by_contra hs
  obtain ⟨rest, hlength, hpath, hmiss⟩ := exists_avoiding hnonneg hs k
  exact hmiss (hk rest hlength hpath)

/-! ### Reaching states -/

section Chain

variable {c : Chain (Fin n)} (hp : ∀ s t, p.entry s t = (c s).weight t)
include hp

/-- **The reaching states** are those with a path that visits the target. -/
theorem reaching_iff_exists_path :
    (reachingSet p (certainSet p target)).get s = true ↔
      ∃ rest, Possible p (s :: rest) ∧ target ∈ s :: rest := by
  have hstep : ∀ s t, 0 < (c s).weight t →
      (∃ rest, Possible p (t :: rest) ∧ target ∈ t :: rest) →
        ∃ rest, Possible p (s :: rest) ∧ target ∈ s :: rest :=
    fun s t hst => exists_path_of_step ((hp s t).symm ▸ hst)
  constructor
  · refine reaching_induction hp (fun t => ?_) fun s t hst _ => hstep s t hst
    exact certain_induction hp ⟨[], .singleton target, List.mem_singleton_self target⟩ hstep
  · rintro ⟨rest, hpath, hvisit⟩
    induction rest generalizing s with
    | nil =>
      obtain rfl := List.mem_singleton.mp hvisit
      exact reachingSet_of_certain certainSet_target
    | cons t rest ih =>
      obtain ⟨hst, htail⟩ := possible_cons_cons.mp hpath
      rcases List.mem_cons.mp hvisit with rfl | hvisit
      · exact reachingSet_of_certain certainSet_target
      · by_contra hs
        exact not_reaching_of_weight hp hs (hp s t ▸ hst) (ih htail hvisit)

/-- **From an undecided state** some path leads through undecided states to a certain one. -/
theorem exists_leaving (hs : (classify p target .unbounded).get s = .undecided) :
    ∃ inner last, Possible p (s :: inner ++ [last]) ∧
      (∀ t ∈ s :: inner, (classify p target .unbounded).get t = .undecided) ∧
      (classify p target .unbounded).get last = .certain := by
  have hreach : (reachingSet p (certainSet p target)).get s = true := by
    by_contra hnot
    rw [never_iff.mpr hnot] at hs
    cases hs
  revert hs
  refine reaching_induction hp (P := fun s => (classify p target .unbounded).get s = .undecided →
    ∃ inner last, Possible p (s :: inner ++ [last]) ∧
      (∀ t ∈ s :: inner, (classify p target .unbounded).get t = .undecided) ∧
      (classify p target .unbounded).get last = .certain)
    (fun s hcertain hs => ?_) (fun s t hst ht ih hs => ?_) hreach
  · rw [certain_iff.mpr hcertain] at hs
    cases hs
  · rw [← hp] at hst
    rcases hfate : (classify p target .unbounded).get t with _ | _ | _
    · exact absurd ht (never_iff.mp hfate)
    · exact ⟨[], t, possible_cons_cons.mpr ⟨hst, .singleton t⟩,
        fun r hr => List.mem_singleton.mp hr ▸ hs, hfate⟩
    · obtain ⟨inner, last, hpath, hinner, hlast⟩ := ih hfate
      exact ⟨t :: inner, last, possible_cons_cons.mpr ⟨hst, hpath⟩,
        List.forall_mem_cons.mpr ⟨hs, hinner⟩, hlast⟩

/-- **A solution is positive and at most one**: it is made of chances to come to the target, from
states that reach it. -/
theorem pos_and_le_one_of_solves
    {y : Vector ℚ (undecided (classify p target .unbounded)).length}
    (hy : (undecidedSystem p target).Solves y) (i : Fin _) : 0 < y.get i ∧ y.get i ≤ 1 := by
  have hvalue : y.get i = c.value target ((undecided _).get i) := by
    rw [← filled_eq_value hp (eq_mean_of_solves hp hy), filled_get]
  have hreach : (reachingSet p (certainSet p target)).get ((undecided _).get i) = true := by
    by_contra hnot
    exact absurd ((get_fates i).symm.trans (never_iff.mpr hnot)) Fate.noConfusion
  obtain ⟨k, hk⟩ := within_pos_of_reaching hp hreach
  rw [hvalue]
  exact ⟨hk.trans_le ((Chain.isLUB_value c target _).1 ⟨k, rfl⟩),
    Chain.value_le (f := fun _ => 1) le_rfl (fun _ => zero_le_one)
      (fun t _ => ((c t).mean_const 1).le) _⟩

end Chain

/-- **What the classes of an unbounded query say about paths**, for every matrix whose rows are
distributions:

* a state is certain exactly if there is a number of steps such that every path of that many steps
  from it visits the target;
* it is never there exactly if no path from it visits the target;
* from an undecided state some path leads through undecided states to a certain one;
* the matrix of the system of the undecided states is regular, and the solution of the system
  consists of positive numbers up to one. -/
theorem classify_iff_paths (p : Matrix ℚ n n) (hnonneg : ∀ s t, 0 ≤ p.entry s t)
    (hsum : ∀ s, ∑ t, p.entry s t = 1) (target : Fin n) :
    let fates := classify p target .unbounded
    (∀ s, fates.get s = .certain ↔ ∃ k, ∀ rest : List (Fin n), rest.length = k →
      Possible p (s :: rest) → target ∈ s :: rest) ∧
    (∀ s, fates.get s = .never ↔ ∀ rest, Possible p (s :: rest) → target ∉ s :: rest) ∧
    (∀ s, fates.get s = .undecided → ∃ inner last, Possible p (s :: inner ++ [last]) ∧
      (∀ t ∈ s :: inner, fates.get t = .undecided) ∧ fates.get last = .certain) ∧
    IsUnit (Matrix.of ((restrict p (undecided fates)).identityMinus 1).entry) ∧
    ∃ y, (∀ z, (undecidedSystem p target).Solves z ↔ z = y) ∧
      ∀ i, 0 < y.get i ∧ y.get i ≤ 1 := by
  intro fates
  obtain ⟨c, hp⟩ : ∃ c : Chain (Fin n), ∀ s t, p.entry s t = (c s).weight t :=
    ⟨fun s => ⟨p.entry s, hnonneg s, hsum s⟩, fun _ _ => rfl⟩
  have hunique : ∃! y, (undecidedSystem p target).Solves y := existsUnique_undecidedSystem hp
  refine ⟨fun s => certain_iff.trans (certain_iff_exists_inevitable hnonneg), fun s => ?_,
    fun s => exists_leaving hp, LinearSystem.isUnit_of_existsUnique hunique, ?_⟩
  · rw [never_iff, ne_eq, reaching_iff_exists_path hp, not_exists]
    exact forall_congr' fun rest => not_and
  · obtain ⟨y, hy, honly⟩ := hunique
    refine ⟨y, fun z => ⟨honly z, ?_⟩, pos_and_le_one_of_solves hp hy⟩
    rintro rfl
    exact hy

/-- A state that is never left, one that is left after any number of steps, one that steps to the
goal, and the goal. -/
def lingering : Matrix ℚ 4 4 :=
  #v[#v[1, 0, 0, 0], #v[0, 1 / 2, 1 / 2, 0], #v[0, 0, 0, 1], #v[0, 0, 0, 1]]

/-- The second state comes to the goal with probability one, but may be kept for any number of
steps, and is left to the arithmetic. -/
theorem classify_iff_paths_lingering :
    (∀ s t, 0 ≤ lingering.entry s t) ∧ (∀ s, ∑ t, lingering.entry s t = 1) ∧
    classify lingering 3 .unbounded = #v[.never, .undecided, .certain, .certain] ∧
    (∃ k, ∀ rest, rest.length = k → Possible lingering (2 :: rest) → 3 ∈ 2 :: rest) ∧
    (¬∃ k, ∀ rest, rest.length = k → Possible lingering (1 :: rest) → 3 ∈ 1 :: rest) ∧
    (∀ rest, Possible lingering (0 :: rest) → 3 ∉ 0 :: rest) ∧
    (∃ inner last, Possible lingering (1 :: inner ++ [last])) ∧
    IsUnit (Matrix.of ((restrict lingering
      (undecided (classify lingering 3 .unbounded))).identityMinus 1).entry) ∧
    ∃ y, (undecidedSystem lingering 3).Solves y ∧ ∀ i, 0 < y.get i ∧ y.get i ≤ 1 := by
  have hnonneg : ∀ s t, 0 ≤ lingering.entry s t := by decide +kernel
  have hsum : ∀ s, ∑ t, lingering.entry s t = 1 := by decide +kernel
  have hfates : classify lingering 3 .unbounded = #v[.never, .undecided, .certain, .certain] := by
    decide +kernel
  obtain ⟨hcertain, hnever, hundecided, hunit, y, hy, hrange⟩ :=
    classify_iff_paths lingering hnonneg hsum 3
  refine ⟨hnonneg, hsum, hfates, (hcertain 2).mp (hfates ▸ rfl), fun h => ?_,
    (hnever 0).mp (hfates ▸ rfl), ?_, hunit, y, (hy y).mpr rfl, hrange⟩
  · have hfate := (hcertain 1).mpr h
    rw [hfates] at hfate
    cases hfate
  · obtain ⟨inner, last, hpath, -⟩ := hundecided 1 (hfates ▸ rfl)
    exact ⟨inner, last, hpath⟩

end Reachability

end MarkovDecision
