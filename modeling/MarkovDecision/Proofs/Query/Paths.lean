import MarkovDecision.Proofs.Query.Limit

/-!
# The bounded query measures paths

The chance of having come to a target within a number of steps is a recursion on
the steps, and the query computes it by iterating an affine map from which the
target has been removed. Neither mentions a path. Here both are read as what they
are meant to be: the sum, over all sequences of states that begin in the given one,
make the given number of steps and contain the target, of the product of the
probabilities of their steps.

The recursion looks at the first step of a run, so a path is split into its first
state and the path from the second one on (`Chain.sum_paths_succ`). Away from the
target a path contains the target exactly if the rest of it does. At the target every
path qualifies, and there the recursion says one: all paths of a number of steps from a
state weigh one together (`Chain.sum_pathWeight`). So a path counts with the full weight
of what comes after its first visit, which is why it may run on to its last step.
-/

namespace MarkovDecision

open Finset

/-! ### The weight of a path -/

namespace Chain

variable {S : Type} [Fintype S] {n : ℕ}

/-- The weight of a path: the product of the probabilities of its steps. -/
def pathWeight (c : Chain S) (x : Fin (n + 1) → S) : ℚ :=
  ∏ i : Fin n, (c (x i.castSucc)).weight (x i.succ)

variable (c : Chain S)

/-- **The first step of a path** leads to where the rest of it begins. -/
theorem pathWeight_cons (s : S) (x : Fin (n + 1) → S) :
    c.pathWeight (Fin.cons s x : Fin (n + 2) → S) = (c s).weight (x 0) * c.pathWeight x := by
  rw [pathWeight, Fin.prod_univ_succ]
  simp only [Fin.castSucc_zero, Fin.cons_zero, Fin.cons_succ, Fin.castSucc_succ]
  rfl

variable [DecidableEq S]

/-- Paths with a given first state are given by the states after it. -/
theorem sum_paths_cons (s : S) (P : (Fin (n + 2) → S) → Prop) [DecidablePred P] :
    ∑ x with x 0 = s ∧ P x, c.pathWeight x
      = ∑ y with P (Fin.cons s y), c.pathWeight (Fin.cons s y : Fin (n + 2) → S) := by
  symm
  refine sum_bij (fun y _ => Fin.cons s y) (fun y hy => ?_) (fun y _ z _ heq => ?_)
    (fun x hx => ?_) (fun _ _ => rfl)
  · exact mem_filter.mpr ⟨mem_univ _, Fin.cons_zero _ _, (mem_filter.mp hy).2⟩
  · exact Fin.cons_right_injective (α := fun _ => S) s heq
  · obtain ⟨-, rfl, hP⟩ := mem_filter.mp hx
    have hx : (Fin.cons (x 0) (Fin.tail x) : Fin (n + 2) → S) = x := Fin.cons_self_tail x
    exact ⟨Fin.tail x, mem_filter.mpr ⟨mem_univ _, hx.symm ▸ hP⟩, hx⟩

/-- **One step more**: the paths from a state whose rest has a property weigh what the paths with
that property weigh on average after one step. -/
theorem sum_paths_succ (s : S) (P : (Fin (n + 2) → S) → Prop) [DecidablePred P]
    (Q : (Fin (n + 1) → S) → Prop) [DecidablePred Q] (hPQ : ∀ y, P (Fin.cons s y) ↔ Q y) :
    ∑ x with x 0 = s ∧ P x, c.pathWeight x
      = (c s).mean fun t => ∑ y with y 0 = t ∧ Q y, c.pathWeight y := by
  have hfiber : ∀ t, ∑ y with y 0 = t ∧ Q y, (c s).weight (y 0) * c.pathWeight y
      = (c s).weight t * ∑ y with y 0 = t ∧ Q y, c.pathWeight y := by
    intro t
    rw [mul_sum]
    refine sum_congr rfl fun y hy => ?_
    rw [(mem_filter.mp hy).2.1]
  calc ∑ x with x 0 = s ∧ P x, c.pathWeight x
      = ∑ y with Q y, (c s).weight (y 0) * c.pathWeight y := by
        rw [sum_paths_cons]
        simp only [hPQ, pathWeight_cons]
    _ = ∑ t, ∑ y with y 0 = t ∧ Q y, (c s).weight (y 0) * c.pathWeight y := by
        rw [← sum_fiberwise _ fun y => y 0]
        simp only [filter_filter, and_comm]
    _ = (c s).mean fun t => ∑ y with y 0 = t ∧ Q y, c.pathWeight y :=
        sum_congr rfl fun t _ => hfiber t

/-- A path without a step is its only state. -/
theorem sum_paths_zero (s : S) (P : (Fin 1 → S) → Prop) [DecidablePred P] :
    ∑ x with x 0 = s ∧ P x, c.pathWeight x = if P fun _ => s then 1 else 0 := by
  have hpath : ∀ x : Fin 1 → S, x 0 = s ∧ P x ↔ x = (fun _ => s) ∧ P fun _ => s := by
    intro x
    have hx : x = (fun _ => s) ↔ x 0 = s := by
      refine ⟨fun h => congrFun h 0, fun h => funext fun i => ?_⟩
      rw [Subsingleton.elim i 0, h]
    constructor
    · rintro ⟨h0, hP⟩
      obtain rfl := hx.mpr h0
      exact ⟨rfl, hP⟩
    · rintro ⟨rfl, hP⟩
      exact ⟨rfl, hP⟩
  simp only [hpath]
  split_ifs with hP
  · simp [hP, filter_eq', pathWeight]
  · simp [hP]

/-- **All paths of a number of steps weigh one together.** -/
theorem sum_pathWeight (n : ℕ) (s : S) :
    ∑ x : Fin (n + 1) → S with x 0 = s, c.pathWeight x = 1 := by
  induction n generalizing s with
  | zero => simpa only [and_true, if_true] using c.sum_paths_zero s fun _ => True
  | succ n ih =>
    have hstep := c.sum_paths_succ (n := n) s (fun _ => True) (fun _ => True) fun _ => Iff.rfl
    simp only [and_true, ih, (c s).mean_const] at hstep
    exact hstep

/-- Every path from the goal contains it. -/
theorem sum_paths_goal (goal : S) (n : ℕ) :
    ∑ x : Fin (n + 1) → S with x 0 = goal ∧ ∃ i, x i = goal, c.pathWeight x = 1 := by
  rw [← c.sum_pathWeight n goal]
  refine sum_congr (filter_congr fun x _ => ?_) fun _ _ => rfl
  exact ⟨fun h => h.1, fun h => ⟨h, 0, h⟩⟩

/-- **The chance of having come to a goal is the weight of the paths that contain it.** -/
theorem within_eq_sum_paths (goal : S) (n : ℕ) (s : S) :
    c.within goal n s
      = ∑ x : Fin (n + 1) → S with x 0 = s ∧ ∃ i, x i = goal, c.pathWeight x := by
  induction n generalizing s with
  | zero =>
    rw [sum_paths_zero, within]
    simp only [exists_const]
  | succ n ih =>
    rcases eq_or_ne s goal with rfl | hs
    · rw [within_goal, sum_paths_goal]
    · -- away from the goal it is the rest of a path that has to contain it
      have hrest : ∀ y : Fin (n + 1) → S,
          (∃ i, (Fin.cons s y : Fin (n + 2) → S) i = goal) ↔ ∃ i, y i = goal := by
        intro y
        rw [Fin.exists_fin_succ]
        simp only [Fin.cons_zero, Fin.cons_succ, hs, false_or]
      rw [c.sum_paths_succ s _ _ hrest]
      simp only [within, hs, if_false]
      exact congrArg (c s).mean (funext ih)

end Chain

/-! ### The query -/

namespace Model

/-- **The bounded query measures paths.** For every declared target of a chain and every number
of steps there is an answer, and its value at a state is the sum, over all sequences of that many
steps from the state which contain the target, of the product of the probabilities of the steps. -/
theorem reachability_eq_sum_paths {b : Builder ℚ} (hb : b.Reachable) {initial : Option String}
    {m : Model ℚ} (hm : b.build initial = .ok m) (hchain : m.isChain = true) {label : String}
    {target : m.State} (hfind : m.findState label = .ok target) (n : ℕ) :
    ∃ v, m.reachability label (.steps n) = .ok v ∧
      ∀ s, v.get s = ∑ x : Fin (n + 1) → m.State with x 0 = s ∧ ∃ i, x i = target,
        ∏ i : Fin n, m.chainMatrix.entry (x i.castSucc) (x i.succ) := by
  have h := hb.stochastic hm
  have hp := h.entry_chainMatrix hchain
  refine ⟨_, reachability_eq_ok.mpr ⟨hchain, target, hfind, Reachability.values_steps hp n⟩,
    fun s => ?_⟩
  rw [get_ofFn, Chain.within_eq_sum_paths]
  simp only [Chain.pathWeight, hp]

/-- Of the paths of two steps that begin at the start of the wandering chain, those that contain the
goal weigh three eighths. -/
theorem reachability_eq_sum_paths_wandering : ∃ b : Builder ℚ, ∃ m : Model ℚ,
    ∃ target : m.State, Builder.ofDeclarations wandering = .ok b ∧ b.build none = .ok m ∧
      m.findState "goal" = .ok target ∧
      ∑ x : Fin 3 → m.State with x 0 = m.initial ∧ ∃ i, x i = target,
        ∏ i : Fin 2, m.chainMatrix.entry (x i.castSucc) (x i.succ) = 3 / 8 := by
  obtain ⟨b, m, hb, hm, htest⟩ := Builder.exists_of_any wandering
    (fun m => m.isChain && (m.findState "goal").toOption.any fun _ =>
      (m.reachability "goal" (.steps 2)).toOption.any fun v => v.get m.initial == 3 / 8)
    (by decide +kernel)
  obtain ⟨hchain, htest⟩ := Bool.and_eq_true_iff.mp htest
  obtain ⟨target, hfind, hvalue⟩ := (Option.any_eq_true _ _).mp htest
  obtain ⟨v, hv, hstart⟩ := (Option.any_eq_true _ _).mp hvalue
  obtain ⟨v', hv', hsum⟩ := reachability_eq_sum_paths (Builder.reachable_of_ofDeclarations hb) hm
    hchain (eq_ok_of_toOption hfind) 2
  obtain rfl := Except.ok.inj (hv'.symm.trans (eq_ok_of_toOption hv))
  exact ⟨b, m, target, hb, hm, eq_ok_of_toOption hfind,
    (hsum m.initial).symm.trans (eq_of_beq hstart)⟩

end Model

end MarkovDecision
