import MarkovDecision.Proofs.Model.Building
import MarkovDecision.Proofs.Synthesis.Learning

/-!
# Policies that have been found

Value iteration and learning both hand out, for every state, an action by a score:
the first enabled one whose score is the largest. This module says that the search for
it finds just that (`Model.isLeast_greedy`), that neither of the two ever fails once its
plan is accepted, and that what they find can be followed: it is admitted as a policy of
runs, and a run under it is a run of the chain that it leaves of the model
(`Model.policies_followed`).

The search goes through the enabled actions once and changes its mind only for a larger
score, so that of several best actions it keeps the one that comes first. That this is
the one with the lowest index is a matter of the builder, which lists the actions of a
state in order.

Learning makes steps under the even policy from states that are drawn. It could fail in
two ways only, by a state that is none and by an answer that is refused, and neither
happens (`exists_yields`).
-/

namespace MarkovDecision

/-! ### The first of the best -/

/-- The search keeps the first of the best, where the actions are listed in order. -/
theorem foldl_better_le {α : Type} [Preorder α] {score : α → ℚ} {a a' : α} {rest : List α}
    (hsorted : (a :: rest).Pairwise (· < ·)) (ha' : a' ∈ a :: rest)
    (hbest : score (rest.foldl (better score) (a, score a)).1 ≤ score a') :
    (rest.foldl (better score) (a, score a)).1 ≤ a' := by
  induction rest generalizing a a' with
  | nil => exact (List.mem_singleton.mp ha').ge
  | cons b rest ih =>
    obtain ⟨hfirst, hrest⟩ := List.pairwise_cons.mp hsorted
    rw [List.foldl_cons, better] at hbest ⊢
    split_ifs at hbest ⊢ with hlt
    · rcases List.mem_cons.mp ha' with rfl | ha'
      -- the first one is not among the best, as the second has a larger score
      · obtain ⟨best, heq, -, hmax⟩ := foldl_better_spec score rest b
        rw [heq] at hbest
        have hb := hmax b List.mem_cons_self
        linarith
      · exact ih hrest ha' hbest
    · have hskip : (a :: rest).Pairwise (· < ·) :=
        List.pairwise_cons.mpr ⟨fun x hx => hfirst x (List.mem_cons_of_mem b hx), hrest.of_cons⟩
      rcases List.mem_cons.mp ha' with rfl | ha'
      · exact ih hskip List.mem_cons_self hbest
      rcases List.mem_cons.mp ha' with rfl | ha'
      -- the second one is as good as the best only if the first one is
      · have hfirstBest := ih hskip List.mem_cons_self (hbest.trans (not_lt.mp hlt))
        exact hfirstBest.trans (hfirst _ List.mem_cons_self).le
      · exact ih hskip (List.mem_cons_of_mem a ha') hbest

namespace Model

/-- The enabled actions of a state whose score is the largest. -/
def best (m : Model ℚ) (s : m.State) (score : m.Action → ℚ) : Set m.Action :=
  {a | a ∈ m.enabled.get s ∧ ∀ a' ∈ m.enabled.get s, score a' ≤ score a}

/-- **The greedy action is the lowest of the best**, where the enabled actions are listed in
order. -/
theorem isLeast_greedy {m : Model ℚ} {s : m.State} (hs : m.enabled.get s ≠ [])
    (hsorted : (m.enabled.get s).Pairwise (· < ·)) (score : m.Action → ℚ) :
    IsLeast (m.best s score) (m.greedy s score) := by
  refine ⟨greedy_spec hs score, ?_⟩
  rintro a ⟨ha, hmax⟩
  have hle := hmax _ (greedy_spec hs score).1
  rw [greedy] at hle ⊢
  split at hle
  next h => exact absurd h hs
  next a₀ rest h =>
    rw [h] at ha hsorted
    exact foldl_better_le hsorted ha hle

end Model

/-- A built model lists the actions of a state in order. -/
theorem Builder.enabled_increasing {b : Builder ℚ} {initial : Option String} {m : Model ℚ}
    (hm : b.build initial = .ok m) (s : m.State) : (m.enabled.get s).Pairwise (· < ·) := by
  obtain ⟨start, rfl⟩ := exists_of_build hm
  exact (b.enabled_assemble start s).symm ▸ b.choices_increasing s

/-- **Learning answers** with the policy that is greedy for its table, if every state enables some
action. -/
theorem Model.exists_learnPolicy {K G : Type} [Scalar K] [RandomSource G] [LawfulDraws G]
    {m : Model K} (hm : ∀ s, m.enabled.get s ≠ []) {plan : LearningPlan K}
    (hplan : plan.check = .ok ()) (g : G) :
    ∃ (table : Table m) (g' : G), m.learnPolicy plan g
      = (.ok ⟨table, Vector.ofFn fun s => m.greedy s (table.q.get s).get⟩, g') := by
  obtain ⟨lesson, source, rfl, hlesson⟩ := exists_lessons hm g
  exact ⟨_, _, learnPolicy_eq hlesson hplan rfl⟩

/-! ### Following what has been found -/

namespace Model

variable {m : Model ℚ}

/-- A choice of enabled actions is admitted as it is. -/
theorem toPolicy_of_mem {policy : Vector m.Action m.size}
    (h : ∀ s, policy.get s ∈ m.enabled.get s) : m.toPolicy policy = .ok ⟨policy⟩ :=
  FixedPolicy.ofList_eq_ok_iff.mpr ⟨rfl, h⟩

/-- What is greedy for some scores is admitted, and takes the lowest of the best actions. -/
theorem exists_toPolicy_greedy (hne : ∀ s, m.enabled.get s ≠ [])
    (hsorted : ∀ s, (m.enabled.get s).Pairwise (· < ·)) (score : m.State → m.Action → ℚ) :
    ∃ π, m.toPolicy (Vector.ofFn fun s => m.greedy s (score s)) = .ok π ∧
      ∀ s, IsLeast (m.best s (score s)) (π.choice.get s) := by
  have hleast : ∀ s, IsLeast (m.best s (score s))
      ((Vector.ofFn fun s => m.greedy s (score s)).get s) := fun s => by
    rw [get_ofFn]
    exact isLeast_greedy (hne s) (hsorted s) (score s)
  exact ⟨_, toPolicy_of_mem fun s => (hleast s).1.1, hleast⟩

/-- **Policies that have been found can be followed.** For a model that has been built, and whatever
the random source draws, if only its draws keep to their bounds, as those of words do,

* value iteration answers to every plan that is accepted, and its policy is admitted and takes in
  every state the lowest enabled action whose value, given the values found, is the largest;
* so does learning, with the values of its table;
* every list of actions that is admitted as a policy leaves of the model a Markov chain in which
  each state has the row of its action, and a run under the policy, of any length and from any
  index of a state, does not fail and comes through the states of the run of that chain from the
  same source. -/
theorem policies_followed {b : Builder ℚ} (hb : b.Reachable) {initial : Option String}
    (hm : b.build initial = .ok m) {G : Type} [RandomSource G] [LawfulDraws G] (g : G) :
    (∀ plan : IterationPlan ℚ, plan.check = .ok () →
      ∃ o π, m.valueIteration plan = .ok o ∧ m.toPolicy o.policy = .ok π ∧
        ∀ s, IsLeast (m.best s (m.backup plan.gamma o.values s)) (π.choice.get s)) ∧
    (∀ plan : LearningPlan ℚ, plan.check = .ok () →
      ∃ o g' π, m.learnPolicy plan g = (.ok o, g') ∧ m.toPolicy o.policy = .ok π ∧
        ∀ s, IsLeast (m.best s (o.table.q.get s).get) (π.choice.get s)) ∧
    ∀ actions π, FixedPolicy.ofList m actions = .ok π →
      (∀ s : m.State, actions[s.val]? = some (π.choice.get s).val) ∧
      π.chain.Stochastic ∧ π.chain.isChain = true ∧
      (∀ s, π.chain.row s π.chain.unnamed = m.row s (π.choice.get s)) ∧
      ∀ (n : ℕ) (start : Option ℕ) (other : Policy (StateM G)),
        start.getD m.initial.val < m.size →
        ∃ path path' g', simulate m n (π.toPolicy (M := StateM G)) start g = (.ok path, g') ∧
          simulate π.chain n other start g = (.ok path', g') ∧ path'.states = path.states := by
  have hne := (hb.stochastic hm).enabled_ne_nil
  have hsorted := Builder.enabled_increasing hm
  refine ⟨fun plan hplan => ?_, fun plan hplan => ?_, fun actions π hπ => ?_⟩
  · obtain ⟨h0, h1, hε⟩ := IterationPlan.check_iff.mp hplan
    obtain ⟨j, -, hanswer, -⟩ := m.exists_of_valueIteration h0 h1 hε plan.maxSweeps
    obtain ⟨π, hπ, hleast⟩ := exists_toPolicy_greedy hne hsorted
      (m.backup plan.gamma (m.swept plan.gamma j))
    exact ⟨_, π, hanswer, hπ, hleast⟩
  · obtain ⟨table, g', hanswer⟩ := exists_learnPolicy hne hplan g
    obtain ⟨π, hπ, hleast⟩ := exists_toPolicy_greedy hne hsorted fun s => (table.q.get s).get
    exact ⟨_, g', π, hanswer, hπ, hleast⟩
  · obtain ⟨rfl, hmem⟩ := FixedPolicy.ofList_eq_ok_iff.mp hπ
    refine ⟨fun s => ?_, FixedPolicy.stochastic_chain (hb.stochastic hm) hmem, π.isChain_chain,
      π.row_chain, fun n start other hstart => ?_⟩
    · simp [Vector.get]
    · exact FixedPolicy.exists_simulate_chain hmem other n hstart g

/-- Nothing is to be gained at the fork, so that both of its actions are best there: the policies
that are found take the first of them, and a run of five steps follows the one of value
iteration. -/
theorem policies_followed_forking : ∃ b : Builder ℚ, ∃ m : Model ℚ,
    Builder.ofDeclarations forking = .ok b ∧ b.build none = .ok m ∧
      (∃ o g' π, m.learnPolicy ⟨1 / 2, 3⟩ (Mixer.mk 0) = (.ok o, g') ∧
        m.toPolicy o.policy = .ok π) ∧
      ∃ o π path path' g', m.valueIteration ⟨1 / 2, 1 / 1000, 10⟩ = .ok o ∧
        o.policy.toList.map Fin.val = [1, 0, 0] ∧ m.toPolicy o.policy = .ok π ∧
        simulate m 5 (π.toPolicy (M := StateM Mixer)) none (Mixer.mk 0) = (.ok path, g') ∧
        simulate π.chain 5 (Policy.cycle (M := StateM Mixer) []) none (Mixer.mk 0)
          = (.ok path', g') ∧ path'.states = path.states := by
  obtain ⟨b, m, hb, hm, htest⟩ := Builder.exists_of_any forking
    (fun m => (m.valueIteration ⟨1 / 2, 1 / 1000, 10⟩).toOption.any fun o =>
      o.policy.toList.map Fin.val == [1, 0, 0]) (by decide +kernel)
  obtain ⟨hiteration, hlearning, hfollowed⟩ :=
    policies_followed (Builder.reachable_of_ofDeclarations hb) hm (Mixer.mk 0)
  obtain ⟨o, hfound, hfirst⟩ := (Option.any_eq_true _ _).mp htest
  obtain ⟨o', π, ho', hπ, -⟩ := hiteration ⟨1 / 2, 1 / 1000, 10⟩
    (IterationPlan.check_iff.mpr ⟨by norm_num, by norm_num, by norm_num⟩)
  obtain rfl := Except.ok.inj ((eq_ok_of_toOption hfound).symm.trans ho')
  obtain ⟨-, -, -, -, hrun⟩ := hfollowed _ π hπ
  obtain ⟨path, path', g', hpath, hpath', hstates⟩ :=
    hrun 5 none (Policy.cycle []) m.initial.isLt
  obtain ⟨l, g₁, π₁, hl, hπ₁, -⟩ := hlearning ⟨1 / 2, 3⟩
    (Parameter.discount_eq_ok_iff.mpr ⟨by norm_num, by norm_num⟩)
  exact ⟨b, m, hb, hm, ⟨l, g₁, π₁, hl, hπ₁⟩, o, π, path, path', g', eq_ok_of_toOption hfound,
    eq_of_beq hfirst, hπ, hpath, hpath', hstates⟩

end Model

end MarkovDecision
