import MarkovDecision.Proofs.Simulation.Course

/-!
# Policies that are never refused

A run is broken off only where its policy answers with an action that is not
enabled. Two kinds of policies never do.

The *even* policy takes an enabled action by a number that is drawn below how many
there are. All it asks of its source is that such a number is below that bound
(`LawfulDraws`). The sources that make their draws out of words keep to it: the draw
looks at a second word where the first leaves it in doubt, and may then add one, which
does not lead to the bound itself (`scaleWord_lt`).

A *fixed* policy has been checked before the run. It makes no draws and takes no
notice of the past, so that a run under it is a run of the chain in which every state
has the row of its action and nothing is left to choose (`FixedPolicy.chain`). The two
runs go in step: from the same state and the same world one step leads to the same
state and the same world (`FixedPolicy.exists_step_chain`), and so do any number of
them (`FixedPolicy.exists_prolong_chain`).
-/

namespace MarkovDecision

variable {K W : Type} {m : Model K}

/-! ### Draws below a number -/

/-- Numbers that are drawn below a bound are below it. -/
class LawfulDraws (W : Type) [RandomMonad (StateM W)] : Prop where
  /-- A draw keeps to its bound. -/
  drawBelow_lt : ∀ {n : ℕ}, 0 < n → ∀ w : W, ((drawBelow n : StateM W ℕ) w).1 < n

export LawfulDraws (drawBelow_lt)

section Words

variable [WordSource W]

/-- What a draw below a number comes to: the first word decides, unless it leaves a doubt and
the second one adds enough to it. -/
theorem scaleWord_cases (n : ℕ) (w : W) : ∃ x y : UInt32,
    (scaleWord n w).1 = x.toNat * n / 2 ^ 32 ∨
      (scaleWord n w).1 = x.toNat * n / 2 ^ 32 + 1 ∧
        2 ^ 32 ≤ x.toNat * n % 2 ^ 32 + y.toNat * n / 2 ^ 32 := by
  rcases hx : (word32 : StateM W UInt32) w with ⟨x, mid⟩
  rcases hy : (word32 : StateM W UInt32) mid with ⟨y, w'⟩
  refine ⟨x, y, ?_⟩
  rw [scaleWord, run_bind hx]
  dsimp only
  split_ifs with hdoubt
  · rw [run_bind hy]
    split_ifs with hcarry
    · exact .inr ⟨rfl, hcarry⟩
    · exact .inl rfl
  · exact .inl rfl

/-- **A word scaled to a number is below it.** -/
theorem scaleWord_lt {n : ℕ} (hn : 0 < n) (w : W) : (scaleWord n w).1 < n := by
  obtain ⟨x, y, h⟩ := scaleWord_cases n w
  have hle : ∀ x : UInt32, x.toNat * n ≤ (2 ^ 32 - 1) * n := fun x =>
    Nat.mul_le_mul_right n (Nat.le_sub_one_of_lt x.toNat_lt)
  have hx := hle x
  have hy := hle y
  omega

instance lawfulDraws_ofWords : LawfulDraws W := ⟨fun hn w => scaleWord_lt hn w⟩

end Words

/-! ### The even policy -/

section Even

variable [RandomMonad (StateM W)] [LawfulDraws W]

variable {s : m.State}

/-- **The even policy answers with an enabled action.** -/
theorem exists_uniform_eq (hs : m.enabled.get s ≠ []) (past : List ℕ) (w : W) :
    ∃ a ∈ m.enabled.get s, ∃ w',
      (Policy.uniform m : Policy (StateM W)) (s.val :: past) w = (a.val, w') := by
  have hoffered : Policy.offered m (s.val :: past) = m.enabled.get s := dif_pos s.isLt
  have hlt := drawBelow_lt (List.length_pos_iff.mpr hs) w
  rcases hdraw : (drawBelow (m.enabled.get s).length : StateM W ℕ) w with ⟨i, w'⟩
  rw [hdraw] at hlt
  refine ⟨(m.enabled.get s)[i], List.getElem_mem hlt, w', ?_⟩
  rw [Policy.uniform, hoffered, run_bind hdraw, List.getElem?_eq_getElem hlt]
  rfl

/-- An action is come by under the even policy. -/
theorem exists_chooses_uniform (hs : m.enabled.get s ≠ []) (past : List ℕ) (w : W) :
    ∃ a w', Chooses m (Policy.uniform m) (s.val :: past) s w a w' := by
  obtain ⟨a, ha, w', hanswer⟩ := exists_uniform_eq hs past w
  rcases chooses_or_refused hs (Policy.uniform m) (s.val :: past) w with h | ⟨_, _, hrefused⟩
  · exact h
  · obtain ⟨rfl, -⟩ := Prod.mk.inj (hanswer.symm.trans hrefused.answered)
    exact absurd rfl (hrefused.not_enabled a ha)

/-- A step under the even policy does not fail. -/
theorem exists_step_uniform [Scalar K] (hm : ∀ s, m.enabled.get s ≠ []) (s : m.State)
    (past : List ℕ) (w : W) :
    ∃ taken w', step m (Policy.uniform (M := StateM W) m) (s.val :: past) w = (.ok taken, w') := by
  obtain ⟨a, mid, hchoice⟩ := exists_chooses_uniform (hm s) past w
  exact ⟨_, _, step_of_chooses hchoice rfl⟩

end Even

/-! ### Fixed policies -/

namespace FixedPolicy

variable {s : m.State}

theorem enabledAt_eq_some_iff {action : ℕ} {a : m.Action} :
    enabledAt m s action = some a ↔ a ∈ m.enabled.get s ∧ a.val = action := by
  have hval : ∀ a', enabledAt m s action = some a' → a'.val = action := fun a' h => by
    rw [enabledAt] at h
    simpa using List.find?_some h
  constructor
  · intro h
    exact ⟨List.mem_of_find?_eq_some h, hval a h⟩
  · rintro ⟨ha, rfl⟩
    exact find?_val_eq ha

theorem firstFault_eq_none_iff {numbers : Vector ℕ m.size} :
    firstFault m numbers = none ↔ ∀ s, ∃ a, enabledAt m s (numbers.get s) = some a := by
  rw [firstFault, List.findSome?_eq_none_iff]
  constructor
  · intro h s
    have hs := h s (List.mem_finRange s)
    cases hat : enabledAt m s (numbers.get s) with
    | none =>
      rw [hat] at hs
      cases hs
    | some a => exact ⟨a, rfl⟩
  · intro h s _
    obtain ⟨a, ha⟩ := h s
    rw [ha]

/-- A list of numbers is admitted if each of them is the one of an enabled action. -/
theorem ofList_toList_eq_ok_iff {numbers : Vector ℕ m.size} {p : FixedPolicy m} :
    ofList m numbers.toList = .ok p ↔
      ∀ s, p.choice.get s ∈ m.enabled.get s ∧ (p.choice.get s).val = numbers.get s := by
  simp only [← enabledAt_eq_some_iff]
  have hnumbers : (⟨numbers.toList.toArray, numbers.size_toArray⟩ : Vector ℕ m.size) = numbers :=
    rfl
  rw [ofList, dif_pos numbers.length_toList, hnumbers]
  rcases hfault : firstFault m numbers with _ | fault
  all_goals simp only [hfault]
  · constructor
    · intro h s
      obtain rfl := Except.ok.inj h
      obtain ⟨a, ha⟩ := firstFault_eq_none_iff.mp hfault s
      rw [get_ofFn, ha]
      rfl
    · intro h
      refine congrArg Except.ok (congrArg FixedPolicy.mk (ext_get fun s => ?_))
      rw [get_ofFn, h s]
      rfl
  · constructor
    · rintro ⟨⟩
    · intro h
      rw [firstFault_eq_none_iff.mpr fun s => ⟨_, h s⟩] at hfault
      cases hfault

/-- **The lists that are admitted**: the numbers of the actions of a policy, one for every state
and enabled there. -/
theorem ofList_eq_ok_iff {actions : List ℕ} {p : FixedPolicy m} :
    ofList m actions = .ok p ↔
      actions = p.choice.toList.map Fin.val ∧ ∀ s, p.choice.get s ∈ m.enabled.get s := by
  by_cases hlength : actions.length = m.size
  · obtain ⟨numbers, rfl⟩ : ∃ numbers : Vector ℕ m.size, numbers.toList = actions :=
      ⟨⟨actions.toArray, by simpa using hlength⟩, by simp⟩
    rw [ofList_toList_eq_ok_iff, ← Vector.toList_map, Vector.toList_inj]
    constructor
    · intro h
      refine ⟨ext_get fun s => ?_, fun s => (h s).1⟩
      rw [get_map, (h s).2]
    · rintro ⟨rfl, h⟩ s
      exact ⟨h s, (get_map Fin.val p.choice s).symm⟩
  · constructor
    · intro h
      rw [ofList, dif_neg hlength] at h
      cases h
    · rintro ⟨rfl, -⟩
      exact absurd (by simp) hlength

/-! ### The chain of a fixed policy -/

/-- **The chain that a fixed policy leaves of a model**: the same states, each with the row of its
action. -/
@[reducible] def chain (p : FixedPolicy m) : Model K where
  size := m.size
  declared := 0
  stateLabels := m.stateLabels
  actionLabels := #v[]
  rewards := m.rewards
  rows := Vector.ofFn fun s => #v[m.row s (p.choice.get s)]
  enabled := Vector.replicate m.size [0]
  initial := m.initial

variable (p : FixedPolicy m)

theorem enabled_chain (s : m.State) : p.chain.enabled.get s = [p.chain.unnamed] :=
  get_replicate _ s

theorem row_chain (s : m.State) :
    p.chain.row s p.chain.unnamed = m.row s (p.choice.get s) := by
  have hrows : p.chain.rows.get s = #v[m.row s (p.choice.get s)] := get_ofFn _ s
  rw [Model.row, hrows]
  rfl

/-- Nothing is left to choose. -/
theorem isChain_chain : p.chain.isChain = true := by
  rw [Model.isChain, Bool.and_eq_true, List.all_eq_true]
  exact ⟨rfl, fun s _ => beq_iff_eq.mpr (p.enabled_chain s)⟩

/-- What a fixed policy leaves of a process is one. -/
theorem stochastic_chain {m : Model ℚ} (h : m.Stochastic) {p : FixedPolicy m}
    (hp : ∀ s, p.choice.get s ∈ m.enabled.get s) : p.chain.Stochastic := by
  have hall : ∀ a : p.chain.Action, a = p.chain.unnamed := fun a => Fin.eq_zero a
  have hprob : ∀ s a t, p.chain.prob s a t = m.prob s (p.choice.get s) t := by
    intro s a t
    rw [hall a, Model.prob, row_chain]
    rfl
  refine ⟨fun s => ?_, fun s a t => ?_, fun s a _ => ?_⟩
  · rw [p.enabled_chain s]
    exact List.cons_ne_nil _ _
  · rw [hprob]
    exact h.prob_nonneg s (p.choice.get s) t
  · simp only [hprob]
    exact h.sum_prob s (p.choice.get s) (hp s)

/-! ### Two runs in step -/

section Runs

variable {p} (hp : ∀ s, p.choice.get s ∈ m.enabled.get s) (other : Policy (StateM W))

include hp in
/-- A fixed policy has its action taken, and the world stays as it is. -/
theorem chooses_toPolicy (s : m.State) (past : List ℕ) (w : W) :
    Chooses m p.toPolicy (s.val :: past) s w (p.choice.get s) w := by
  have hmem := hp s
  rcases henabled : m.enabled.get s with _ | ⟨a, _ | ⟨a', rest⟩⟩
  · rw [henabled] at hmem
    cases hmem
  · rw [henabled, List.mem_singleton] at hmem
    exact .only (henabled.trans (congrArg (fun a => [a]) hmem.symm))
  · have hanswer : (p.toPolicy : Policy (StateM W)) (s.val :: past) w
        = (if h : s.val < m.size then (p.choice.get ⟨s.val, h⟩).val else 0, w) := rfl
    refine .asked (by simp [henabled]) hmem ?_
    rw [hanswer, dif_pos s.isLt]

variable [Scalar K] [RandomMonad (StateM W)]

include hp in
/-- **One step under a fixed policy is one step of its chain**, whatever lies behind the two. -/
theorem exists_step_chain (s : m.State) (past past' : List ℕ) (w : W) :
    ∃ t w',
      step m (p.toPolicy (M := StateM W)) (s.val :: past) w = (.ok ⟨p.choice.get s, t⟩, w') ∧
      step p.chain other (s.val :: past') w = (.ok ⟨p.chain.unnamed, t⟩, w') := by
  rcases hdraw : (drawUnit : StateM W K) w with ⟨u, w'⟩
  refine ⟨_, w', step_of_chooses (chooses_toPolicy hp s past w) hdraw, ?_⟩
  have hchain : Chooses p.chain other (s.val :: past') s w p.chain.unnamed w :=
    .only (p.enabled_chain s)
  rw [step_of_chooses hchain hdraw, p.row_chain]

include hp in
/-- **Any number of steps under a fixed policy are as many steps of its chain.** -/
theorem exists_prolong_chain (k : ℕ) (s : m.State) (past past' : List ℕ) (trail : List m.State)
    (last : Option m.Action) (last' : Option p.chain.Action) (w : W) :
    ∃ trail' last₁ last₁' w',
      prolong m (p.toPolicy (M := StateM W)) k (s.val :: past) ⟨trail, last⟩ w
        = (.ok ⟨trail', last₁⟩, w') ∧
      prolong p.chain other k (s.val :: past') ⟨trail, last'⟩ w = (.ok ⟨trail', last₁'⟩, w') := by
  induction k generalizing s past past' trail last last' w with
  | zero => exact ⟨trail, last, last', w, rfl, rfl⟩
  | succ k ih =>
    obtain ⟨t, mid, hstep, hstep'⟩ := exists_step_chain hp other s past past' w
    rw [prolong, prolong, run_bind_of_ok hstep, run_bind_of_ok hstep']
    exact ih t (s.val :: past) (s.val :: past') (t :: trail) _ _ mid

include hp in
/-- **A run under a fixed policy is a run of its chain.** It does not fail from an index of a state,
and the other run, whose policy is not asked, comes through the same states and draws the same. -/
theorem exists_simulate_chain (n : ℕ) {start : Option ℕ}
    (hstart : start.getD m.initial.val < m.size) (w : W) :
    ∃ path path' w', simulate m n (p.toPolicy (M := StateM W)) start w = (.ok path, w') ∧
      simulate p.chain n other start w = (.ok path', w') ∧ path'.states = path.states := by
  obtain ⟨s, hs⟩ : ∃ s : m.State, s.val = start.getD m.initial.val := ⟨⟨_, hstart⟩, rfl⟩
  have hs' : start.getD p.chain.initial.val = s.val := hs.symm
  obtain ⟨trail, last, last', w', hrun, hrun'⟩ :=
    exists_prolong_chain hp other n s [] [] [s] none none w
  refine ⟨⟨trail, last⟩, ⟨trail, last'⟩, w', ?_, ?_, rfl⟩
  · rw [simulate, ← hs, run_bind_of_ok (run_checked (m.checkState_val s))]
    exact hrun
  · rw [simulate, hs', run_bind_of_ok (run_checked (p.chain.checkState_val s))]
    exact hrun'

end Runs

end FixedPolicy

end MarkovDecision
